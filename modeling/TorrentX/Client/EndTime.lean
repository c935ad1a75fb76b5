import TorrentX.Machinery.Numerals
import TorrentX.Machinery.Run

/-!
# Client/EndTime — the remaining time, as days, hours, minutes and seconds

The model of `endTime`.  The code never has the number of seconds: it divides the bytes that remain
by the bytes of a day, of an hour, of a minute, and by the speed only at the end.  What it prints
are nevertheless the components of `remain / speed` (`endTime_eq`), so the text and the quotient
determine each other (`endTime_exact`).

An `int64_t` is an integer; a product or a quotient outside its range is a fault.
-/

namespace TorrentX

open Numerals

/-- The undefined behaviour of `endTime`. -/
inductive TimeFault
  | overflow
deriving DecidableEq

namespace InfoHelper

/-! ## The model -/

/-- `Time::DAY`. -/
def day : ℤ := 24 * 60 * 60

/-- `Time::HOUR`. -/
def hour : ℤ := 60 * 60

/-- `Time::MINUTE`. -/
def minute : ℤ := 60

/-- The result of an operation on `int64_t`. -/
def int64 (x : ℤ) : Except TimeFault ℤ :=
  if -2 ^ 63 ≤ x ∧ x < 2 ^ 63 then .ok x else .error .overflow

/-- `std::to_string`. -/
def toText : ℤ → Text
  | .ofNat n => numeral n
  | .negSucc n => '-' :: numeral (n + 1)

/-- The three `if`s of `endTime`: as many whole units as remain, then what is left. -/
def wholeUnits (speed seconds : ℤ) (unit : Text) (remain : ℤ) (result : Text) :
    Except TimeFault (ℤ × Text) := do
  let bytes ← int64 (speed * seconds)
  if remain ≥ bytes then
    let count ← int64 (remain.tdiv bytes)
    return (remain.tmod bytes, result ++ (toText count ++ unit))
  else return (remain, result)

/-- `endTime`. -/
def endTime (remain speed : ℤ) : Except TimeFault Text :=
  if speed = 0 then .ok ['9', '9', '9', 'd']
  else do
    let (remain, result) ← wholeUnits speed day ['d'] remain []
    let (remain, result) ← wholeUnits speed hour ['h'] remain result
    let (remain, result) ← wholeUnits speed minute ['m'] remain result
    let seconds ← int64 (remain.tdiv speed)
    return result ++ (toText seconds ++ ['s', 'e', 'c'])

/-! ## The components of a number of seconds

What should be printed, with nothing of the code in it: as many days as there are, then hours of the
rest, then minutes of that.  The text can be read back to its components, and these to the
seconds. -/

/-- A component, unless it is zero. -/
def printed (count : ℕ) (unit : Text) : List Quantity := if count = 0 then [] else [(count, unit)]

/-- Days, hours and minutes unless they are zero, and the seconds. -/
def components (seconds : ℕ) : List Quantity :=
  printed (seconds / 86400) ['d'] ++ (printed (seconds % 86400 / 3600) ['h'] ++
    (printed (seconds % 86400 % 3600 / 60) ['m'] ++
      [(seconds % 86400 % 3600 % 60, ['s', 'e', 'c'])]))

theorem mem_printed {count : ℕ} {unit : Text} {q : Quantity} (hq : q ∈ printed count unit) :
    q.2 = unit := by
  rw [printed] at hq
  split at hq
  · exact absurd hq List.not_mem_nil
  · rw [List.mem_singleton.1 hq]

/-- The units are letters, so a numeral ends where its unit starts. -/
theorem unitText_of_mem_components {seconds : ℕ} {q : Quantity} (hq : q ∈ components seconds) :
    UnitText q.2 := by
  have hd : UnitText ['d'] := by simp [UnitText]
  have hh : UnitText ['h'] := by simp [UnitText]
  have hm : UnitText ['m'] := by simp [UnitText]
  have hs : UnitText ['s', 'e', 'c'] := by simp [UnitText]
  rw [components, List.mem_append, List.mem_append, List.mem_append] at hq
  rcases hq with hq | hq | hq | hq
  · exact mem_printed hq ▸ hd
  · exact mem_printed hq ▸ hh
  · exact mem_printed hq ▸ hm
  · exact List.mem_singleton.1 hq ▸ hs

/-- The text has the components. -/
theorem quantities_components (seconds : ℕ) :
    quantities (spell (components seconds)) = components seconds :=
  quantities_spell fun _ => unitText_of_mem_components

/-- Those that are zero are left out, but not the seconds. -/
theorem components_eq_filter (seconds : ℕ) :
    components seconds =
      [(seconds / 86400, ['d']), (seconds % 86400 / 3600, ['h']),
        (seconds % 86400 % 3600 / 60, ['m'])].filter (·.1 ≠ 0) ++
          [(seconds % 86400 % 3600 % 60, ['s', 'e', 'c'])] := by
  simp only [components, printed, List.filter_cons, List.filter_nil, decide_not]
  split_ifs <;> simp_all

/-- The seconds in a unit. -/
def secondsPer (unit : Text) : ℕ :=
  if unit = ['d'] then 86400 else if unit = ['h'] then 3600 else if unit = ['m'] then 60 else 1

/-- The seconds that quantities are together. -/
def secondsIn (qs : List Quantity) : ℕ := (qs.map fun q => q.1 * secondsPer q.2).sum

theorem secondsIn_append (qs rs : List Quantity) :
    secondsIn (qs ++ rs) = secondsIn qs + secondsIn rs := by
  rw [secondsIn, List.map_append, List.sum_append, secondsIn, secondsIn]

/-- A component that is zero counts for nothing. -/
theorem secondsIn_printed (count : ℕ) (unit : Text) :
    secondsIn (printed count unit) = count * secondsPer unit := by
  rw [printed]
  split
  · next h => rw [h, Nat.zero_mul]; rfl
  · exact List.sum_singleton

/-- The components are as many seconds as were asked for. -/
theorem secondsIn_components (seconds : ℕ) : secondsIn (components seconds) = seconds := by
  have hd : secondsPer ['d'] = 86400 := rfl
  have hh : secondsPer ['h'] = 3600 := rfl
  have hm : secondsPer ['m'] = 60 := rfl
  have hs : secondsIn [(seconds % 86400 % 3600 % 60, ['s', 'e', 'c'])] =
      seconds % 86400 % 3600 % 60 := by
    rw [secondsIn, List.map_singleton, List.sum_singleton]
    exact Nat.mul_one _
  rw [components, secondsIn_append, secondsIn_append, secondsIn_append, secondsIn_printed,
    secondsIn_printed, secondsIn_printed, hd, hh, hm, hs]
  omega

/-- Different numbers of seconds have different texts. -/
theorem spell_components_inj {s t : ℕ} : spell (components s) = spell (components t) ↔ s = t := by
  refine ⟨fun h => ?_, congrArg fun n => spell (components n)⟩
  rw [← secondsIn_components s, ← quantities_components s, h, quantities_components,
    secondsIn_components]

/-! ## What `endTime` prints

Dividing by the bytes of a unit is dividing the quotient by the seconds of it, since both are
`remain` over a product with the speed.  What is left then has the remainder as its quotient, so the
next unit goes on in the same way. -/

/-- A result in range. -/
theorem int64_of_lt {n : ℕ} (hn : n < 2 ^ 63) : int64 n = .ok (n : ℤ) := by
  have hrange : -2 ^ 63 ≤ (n : ℤ) ∧ (n : ℤ) < 2 ^ 63 := by omega
  rw [int64, if_pos hrange]

theorem toText_natCast (n : ℕ) : toText n = numeral n := rfl

/-- **One unit**: what is printed is the number of whole units in the quotient by the speed, and
what is left has the remainder of it as its quotient. -/
theorem wholeUnits_eq (unit result : Text) {remain speed seconds q : ℕ} (hq : remain / speed = q)
    (hspeed : 0 < speed) (hseconds : 0 < seconds) (hr : remain < 2 ^ 63)
    (hbytes : speed * seconds < 2 ^ 63) :
    ∃ left : ℕ, wholeUnits speed seconds unit remain result =
        .ok ((left : ℤ), result ++ spell (printed (q / seconds) unit)) ∧
      left / speed = q % seconds ∧ left < 2 ^ 63 := by
  have hpos : 0 < speed * seconds := Nat.mul_pos hspeed hseconds
  have hcount : q / seconds = remain / (speed * seconds) :=
    hq ▸ Nat.div_div_eq_div_mul _ _ _
  have hproduct : ((speed : ℤ) * seconds) = ((speed * seconds : ℕ) : ℤ) := (Nat.cast_mul _ _).symm
  refine ⟨remain % (speed * seconds), ?_, hq ▸ Nat.mod_mul_right_div_self _ _ _,
    (Nat.mod_le _ _).trans_lt hr⟩
  rw [wholeUnits, hproduct, bind_of_eq_ok (int64_of_lt hbytes), hcount]
  by_cases h : speed * seconds ≤ remain
  · have hne : remain / (speed * seconds) ≠ 0 := (Nat.div_pos h hpos).ne'
    have hlt : remain / (speed * seconds) < 2 ^ 63 := (Nat.div_le_self _ _).trans_lt hr
    rw [if_pos (Int.ofNat_le.2 h), ← Int.ofNat_tdiv, bind_of_eq_ok (int64_of_lt hlt),
      toText_natCast, printed, if_neg hne, spell_cons, spell_nil, List.append_nil]
    rfl
  · have hlt : remain < speed * seconds := not_le.1 h
    rw [if_neg (fun hle => h (Int.ofNat_le.1 hle)), Nat.div_eq_of_lt hlt, Nat.mod_eq_of_lt hlt,
      printed, if_pos rfl, spell_nil, List.append_nil]
    rfl

/-- **The text is that of the quotient**: its days, hours, minutes and seconds. -/
theorem endTime_eq {remain speed : ℕ} (hr : remain < 2 ^ 63) (hspeed : 0 < speed)
    (hs : speed < 2 ^ 31) :
    endTime remain speed = .ok (spell (components (remain / speed))) := by
  have hne : ¬(speed : ℤ) = 0 := by omega
  generalize hq : remain / speed = q
  let days := printed (q / 86400) ['d']
  let hours := printed (q % 86400 / 3600) ['h']
  obtain ⟨r₁, hday, hq₁, hr₁⟩ := wholeUnits_eq ['d'] [] hq hspeed (show 0 < 86400 by decide) hr
    (by omega)
  obtain ⟨r₂, hhour, hq₂, hr₂⟩ := wholeUnits_eq ['h'] ([] ++ spell days) hq₁ hspeed
    (show 0 < 3600 by decide) hr₁ (by omega)
  obtain ⟨r₃, hminute, hq₃, hr₃⟩ := wholeUnits_eq ['m'] (([] ++ spell days) ++ spell hours) hq₂
    hspeed (show 0 < 60 by decide) hr₂ (by omega)
  have hlast : (r₃ : ℤ).tdiv speed = ((q % 86400 % 3600 % 60 : ℕ) : ℤ) := by
    rw [← hq₃, ← Int.ofNat_tdiv]
  have hlt : q % 86400 % 3600 % 60 < 2 ^ 63 := by omega
  have hunits : day = (86400 : ℕ) ∧ hour = (3600 : ℕ) ∧ minute = (60 : ℕ) := ⟨rfl, rfl, rfl⟩
  rw [endTime, if_neg hne, hunits.1, hunits.2.1, hunits.2.2, bind_of_eq_ok hday]
  dsimp only
  rw [bind_of_eq_ok hhour]
  dsimp only
  rw [bind_of_eq_ok hminute]
  dsimp only
  rw [hlast, bind_of_eq_ok (int64_of_lt hlt), toText_natCast]
  simp [components, days, hours, pure, Except.pure]

/-! ## The remaining time is exact -/

/-- The arguments `endTime` gets: bytes, and a speed that is a positive `int`. -/
structure InRange (remain speed : ℤ) : Prop where
  remain_nonneg : 0 ≤ remain
  remain_lt : remain < 2 ^ 63
  speed_pos : 1 ≤ speed
  speed_le : speed ≤ 2 ^ 31 - 1

namespace InRange

variable {remain speed : ℤ}

/-- On arguments in range the text is that of the quotient. -/
theorem endTime_eq (h : InRange remain speed) :
    endTime remain speed = .ok (spell (components (remain / speed).toNat)) := by
  obtain ⟨hr, hr', hs, hs'⟩ := h
  obtain ⟨r, rfl⟩ := Int.eq_ofNat_of_zero_le hr
  obtain ⟨s, rfl⟩ := Int.eq_ofNat_of_zero_le (show 0 ≤ speed by omega)
  rw [← Int.natCast_ediv, Int.toNat_natCast]
  exact InfoHelper.endTime_eq (by omega) (by omega) (by omega)

theorem toNat_div (h : InRange remain speed) : ((remain / speed).toNat : ℤ) = remain / speed :=
  Int.toNat_of_nonneg (Int.ediv_nonneg h.remain_nonneg (by have := h.speed_pos; omega))

end InRange

/-- **The remaining time is exact**: without overflow, the text has the days, hours, minutes and
seconds of the quotient, those that are zero left out except for the seconds — and the text is the
same for two inputs exactly when the quotient is. -/
theorem endTime_exact {remain speed : ℤ} (h : InRange remain speed) :
    ∃ (text : Text) (d h m s : ℕ),
      endTime remain speed = .ok text ∧
      quantities text =
        [(d, ['d']), (h, ['h']), (m, ['m'])].filter (·.1 ≠ 0) ++ [(s, ['s', 'e', 'c'])] ∧
      (d * 86400 + h * 3600 + m * 60 + s : ℤ) = remain / speed ∧
      h < 24 ∧ m < 60 ∧ s < 60 ∧
      ∀ remain' speed', InRange remain' speed' →
        (endTime remain' speed' = .ok text ↔ remain' / speed' = remain / speed) := by
  let q := (remain / speed).toNat
  have hq : (q : ℤ) = remain / speed := h.toNat_div
  refine ⟨spell (components q), q / 86400, q % 86400 / 3600, q % 86400 % 3600 / 60,
    q % 86400 % 3600 % 60, h.endTime_eq, ?_, by omega, by omega, by omega, by omega, ?_⟩
  · rw [quantities_components, components_eq_filter]
  · intro remain' speed' h'
    rw [h'.endTime_eq, Except.ok.injEq, spell_components_inj, ← Int.natCast_inj, h'.toNat_div, hq]

/-- A day and two seconds have no hours and no minutes: `1d2sec`. -/
theorem endTime_exact_dayAndTwoSeconds :
    InRange 86402 1 ∧ endTime 86402 1 = .ok ['1', 'd', '2', 's', 'e', 'c'] ∧
      ∃ (text : Text) (d h m s : ℕ),
        endTime 86402 1 = .ok text ∧
        quantities text =
          [(d, ['d']), (h, ['h']), (m, ['m'])].filter (·.1 ≠ 0) ++ [(s, ['s', 'e', 'c'])] ∧
        (d * 86400 + h * 3600 + m * 60 + s : ℤ) = 86402 / 1 ∧
        h < 24 ∧ m < 60 ∧ s < 60 ∧
        ∀ remain' speed', InRange remain' speed' →
          (endTime remain' speed' = .ok text ↔ remain' / speed' = 86402 / 1) :=
  have h : InRange 86402 1 := ⟨by decide, by decide, by decide, by decide⟩
  ⟨h, by decide, endTime_exact h⟩

end InfoHelper

end TorrentX
