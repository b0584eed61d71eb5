import Lait.Bytes

/-!
# Ranks between ranks

A rank is a string of base-62 digits, least digit first in the alphabet, compared byte by
byte.  A rank between two others follows the lower one digit by digit, read as continued
by zeros, until the upper one leaves room for a digit strictly between.

Two things make the walk end where it should.  While the digits so far are those of both
bounds, the lower has no greater digit next (`value_le_value`), so the difference the
source computes never goes below zero, and the upper one has a next digit at all
(`lt_length_of_agree`): it is not a prefix of the lower, which is below it, and it is not
the lower followed by zeros, as a rank does not end in one.  Once a digit below the upper
bound's has been placed the upper bound is met by whatever follows, and the walk ends at
the first digit of the lower that is not the greatest, at the latest past its end.
-/

namespace Lait.Issues.Rank

/-- The rank alphabet, in ASCII order. -/
def DIGITS : List UInt8 :=
  (Bytes.ofString "0123456789ABCDEFGHIJKLMNOPQRSTUVWXYZabcdefghijklmnopqrstuvwxyz").data

/-- The durable per-level wire ceiling. -/
def MAX_BYTES : ℕ := 256

/-- The most labels of one maintenance window. -/
def MAINTENANCE_WINDOW : ℕ := 128

/-- A canonical durable rank: the minimum digit may appear inside but not at the end. -/
def valid (rank : Text) : Bool :=
  !rank.data.isEmpty && decide (rank.length ≤ MAX_BYTES) &&
    rank.data.all (fun byte => DIGITS.contains byte) &&
    decide (rank.data.getLast? ≠ DIGITS.head?)

/-- The digit at a position; past the end it is the bottom of the alphabet. -/
def value (rank : Text) (index : ℕ) : ℕ :=
  (rank.data[index]?.bind fun byte => DIGITS.idxOf? byte).getD 0

/-- The character of a digit. -/
def digit (n : ℕ) : UInt8 := DIGITS.getD n 0

/-- The digit the walk must stay below: the upper bound's, or one past the alphabet. -/
def ceiling (hi : Option Text) (bounded : Bool) (index : ℕ) : ℕ :=
  match hi with
  | some hi => if bounded then value hi index else DIGITS.length
  | none => DIGITS.length

/-- The walk along the lower bound.  `bounded` says whether the upper bound still bounds the
digits to come; the fuel is what is left of `MAX_BYTES`. -/
def walk (lo : Text) (hi : Option Text) : ℕ → ℕ → Bool → List UInt8 → Option Text
  | 0, _, _, _ => none
  | fuel + 1, index, bounded, out =>
      let low := value lo index
      let high := ceiling hi bounded index
      if 1 < high - low then
        let rank : Text := ⟨out ++ [digit (low + (high - low) / 2)]⟩
        if valid rank then some rank else none
      else walk lo hi fuel (index + 1) (bounded && !decide (low < high)) (out ++ [digit low])

/-- A rank strictly between `lo` and `hi`: `lo` empty is the start of the list, `hi` absent its
end. -/
def tryBetween (lo : Text) (hi : Option Text) : Option Text :=
  if !lo.data.isEmpty && !valid lo || hi.any (fun hi => !valid hi) || hi.any (fun hi => hi ≤ lo) then
    none
  else walk lo hi MAX_BYTES 0 hi.isSome []

/-- The labels of an interval, the first in the middle and the rest in the halves. -/
def fill (count : ℕ) (lo : Text) (hi : Option Text) : Option (List Text) :=
  if count = 0 then some []
  else do
    let middle := count / 2
    let rank ← tryBetween lo hi
    let before ← fill middle lo (some rank)
    let after ← fill (count - (middle + 1)) rank hi
    return before ++ rank :: after
termination_by count

/-- So many ordered labels inside one open interval. -/
def balancedBetween (lo : Text) (hi : Option Text) (count : ℕ) : Option (List Text) :=
  if MAINTENANCE_WINDOW < count then none else fill count lo hi

/-! ## Digits -/

theorem digits_ascending : DIGITS.Pairwise (· < ·) := by decide

theorem length_digits : DIGITS.length = 62 := rfl

theorem digit_lt_digit {m n : ℕ} (h : m < n) (hn : n < 62) : digit m < digit n := by
  have hn' : n < DIGITS.length := length_digits ▸ hn
  unfold digit
  rw [List.getD_eq_getElem _ _ hn', List.getD_eq_getElem _ _ (h.trans hn')]
  exact List.pairwise_iff_getElem.mp digits_ascending m n (h.trans hn') hn' h

theorem digit_mem {n : ℕ} (hn : n < 62) : digit n ∈ DIGITS := by
  unfold digit
  rw [List.getD_eq_getElem _ _ (length_digits ▸ hn)]
  exact List.getElem_mem _

/-- Every digit of the rank is in the alphabet. -/
def Alphabetic (rank : Text) : Prop := ∀ byte ∈ rank.data, byte ∈ DIGITS

theorem valid_iff {rank : Text} : valid rank = true ↔
    rank.data ≠ [] ∧ rank.length ≤ MAX_BYTES ∧ Alphabetic rank ∧
      rank.data.getLast? ≠ some (digit 0) := by
  have hhead : DIGITS.head? = some (digit 0) := rfl
  unfold valid
  rw [hhead]
  simp [Alphabetic, and_assoc]

theorem idxOf?_digit {byte : UInt8} (h : byte ∈ DIGITS) :
    ∃ n, DIGITS.idxOf? byte = some n ∧ n < 62 ∧ digit n = byte := by
  obtain ⟨n, hn⟩ := Option.isSome_iff_exists.mp (List.isSome_idxOf?.mpr h)
  obtain ⟨hlt, hget, -⟩ := List.idxOf?_eq_some_iff.mp hn
  refine ⟨n, hn, length_digits ▸ hlt, ?_⟩
  unfold digit
  rw [List.getD_eq_getElem _ _ hlt, hget]

theorem value_lt (rank : Text) (index : ℕ) : value rank index < 62 := by
  unfold value
  cases hbyte : rank.data[index]? with
  | none => simp
  | some byte =>
      rw [Option.bind_some]
      by_cases hmem : byte ∈ DIGITS
      · obtain ⟨n, hn, hlt, -⟩ := idxOf?_digit hmem
        rwa [hn]
      · rw [List.idxOf?_eq_none_iff.mpr hmem]
        decide

theorem value_past {rank : Text} {index : ℕ} (h : rank.length ≤ index) : value rank index = 0 := by
  unfold value
  rw [List.getElem?_eq_none h]
  rfl

theorem lt_length_of_value {rank : Text} {index : ℕ} (h : 0 < value rank index) :
    index < rank.length := by
  by_contra hpast
  rw [value_past (not_lt.mp hpast)] at h
  exact absurd h (lt_irrefl 0)

/-- A digit of a rank is spelled by its character. -/
theorem digit_value {rank : Text} (h : Alphabetic rank) {index : ℕ} (hindex : index < rank.length) :
    rank.data[index]? = some (digit (value rank index)) := by
  have hbyte : rank.data[index]? = some (rank.data.get ⟨index, hindex⟩) :=
    List.getElem?_eq_getElem hindex
  obtain ⟨n, hn, -, hdigit⟩ := idxOf?_digit (h _ (List.get_mem rank.data ⟨index, hindex⟩))
  unfold value
  rw [hbyte, Option.bind_some, hn, Option.getD_some, hdigit]

/-! ## The order of ranks -/

theorem compare_append (p a b : List UInt8) : compare (p ++ a) (p ++ b) = compare a b := by
  induction p with
  | nil => rfl
  | cons x p ih =>
      have hself : compare x x = .eq := Std.ReflCmp.compare_self
      rw [List.cons_append, List.cons_append, List.compare_cons_cons, ih, hself]
      rfl

/-- Strings part at the first differing digit. -/
theorem lt_of_digit (p : List UInt8) {x y : UInt8} (h : x < y) (s t : List UInt8) :
    (⟨p ++ x :: s⟩ : Text) < ⟨p ++ y :: t⟩ := by
  show compare (p ++ x :: s) (p ++ y :: t) = .lt
  rw [compare_append, List.compare_cons_cons, Std.compare_eq_lt.mpr h]
  rfl

/-- A string comes before what continues it. -/
theorem lt_append (p : List UInt8) {s : List UInt8} (h : s ≠ []) : (⟨p⟩ : Text) < ⟨p ++ s⟩ := by
  obtain ⟨x, s, rfl⟩ := List.exists_cons_of_ne_nil h
  have hcompare := compare_append p [] (x :: s)
  rw [List.append_nil] at hcompare
  show compare p (p ++ x :: s) = .lt
  rw [hcompare]
  rfl

/-- The digits of a rank up to a position, continued by the least digit. -/
def path (rank : Text) (index : ℕ) : List UInt8 :=
  (List.range index).map fun i => digit (value rank i)

theorem path_succ (rank : Text) (index : ℕ) :
    path rank (index + 1) = path rank index ++ [digit (value rank index)] := by
  unfold path
  rw [List.range_succ, List.map_append, List.map_singleton]

theorem path_congr {rank rank' : Text} {index : ℕ}
    (h : ∀ i < index, value rank i = value rank' i) : path rank index = path rank' index :=
  List.map_congr_left fun i hi => by rw [h i (List.mem_range.mp hi)]

theorem path_eq_take {rank : Text} (h : Alphabetic rank) {index : ℕ}
    (hindex : index ≤ rank.length) : path rank index = rank.data.take index := by
  induction index with
  | zero => rfl
  | succ index ih =>
      rw [path_succ, ih (Nat.le_of_succ_le hindex), List.take_add_one, digit_value h hindex]
      rfl

/-- Past its end a rank is continued. -/
theorem path_past {rank : Text} (h : Alphabetic rank) {index : ℕ} (hindex : rank.length ≤ index) :
    ∃ s, path rank index = rank.data ++ s := by
  obtain ⟨n, rfl⟩ := Nat.exists_eq_add_of_le hindex
  refine ⟨((List.range n).map fun i => digit (value rank (rank.length + i))), ?_⟩
  have hwhole : path rank rank.length = rank.data := by
    rw [path_eq_take h le_rfl]
    exact List.take_length
  rw [← hwhole]
  unfold path
  rw [List.range_add, List.map_append, List.map_map]
  rfl

/-- A rank is its digits up to a position, the digit there, and a rest. -/
theorem eq_path_cons {rank : Text} (h : Alphabetic rank) {index : ℕ}
    (hindex : index < rank.length) :
    ∃ rest, rank = ⟨path rank index ++ digit (value rank index) :: rest⟩ := by
  refine ⟨rank.data.drop (index + 1), Bytes.ext ?_⟩
  obtain ⟨hlt, hget⟩ := List.getElem?_eq_some_iff.mp (digit_value h hindex)
  show rank.data = path rank index ++ digit (value rank index) :: rank.data.drop (index + 1)
  rw [path_eq_take h hindex.le, ← hget, ← List.drop_eq_getElem_cons, List.take_append_drop]

/-- A greater digit leads above. -/
theorem lt_path {rank : Text} (h : Alphabetic rank) {index n : ℕ} (hn : value rank index < n)
    (hdigit : n < 62) (s : List UInt8) : rank < ⟨path rank index ++ digit n :: s⟩ := by
  by_cases hindex : index < rank.length
  · obtain ⟨rest, hrank⟩ := eq_path_cons h hindex
    rw [congrArg (· < _) hrank]
    exact lt_of_digit _ (digit_lt_digit hn hdigit) rest s
  · obtain ⟨t, ht⟩ := path_past h (not_lt.mp hindex)
    rw [ht, List.append_assoc]
    exact lt_append rank.data (by simp)

/-- A smaller one leads below. -/
theorem path_lt {rank : Text} (h : Alphabetic rank) {index n : ℕ} (hn : n < value rank index)
    (s : List UInt8) : (⟨path rank index ++ digit n :: s⟩ : Text) < rank := by
  obtain ⟨rest, hrank⟩ := eq_path_cons h (lt_length_of_value (Nat.zero_lt_of_lt hn))
  rw [congrArg (_ < ·) hrank]
  exact lt_of_digit _ (digit_lt_digit hn (value_lt rank index)) s rest

theorem length_path (rank : Text) (index : ℕ) : (path rank index).length = index := by
  unfold path
  rw [List.length_map, List.length_range]

/-- What the walk ends with is canonical. -/
theorem valid_path_append (rank : Text) {index n : ℕ} (hindex : index < MAX_BYTES) (hpos : 0 < n)
    (hn : n < 62) : valid ⟨path rank index ++ [digit n]⟩ = true := by
  refine valid_iff.mpr ⟨by simp, ?_, ?_, ?_⟩
  · show (path rank index ++ [digit n]).length ≤ MAX_BYTES
    rw [List.length_append, length_path]
    exact hindex
  · intro byte hbyte
    rcases List.mem_append.mp hbyte with hbyte | hbyte
    · obtain ⟨i, -, rfl⟩ := List.mem_map.mp hbyte
      exact digit_mem (value_lt rank i)
    · rw [List.mem_singleton.mp hbyte]
      exact digit_mem hn
  · show (path rank index ++ [digit n]).getLast? ≠ _
    rw [List.getLast?_concat, ne_eq, Option.some.injEq]
    exact (UInt8.ne_of_lt (digit_lt_digit hpos hn)).symm

/-! ## Where two ranks part -/

section Bounds

variable {lo hi : Text} (hlo : Alphabetic lo) (hhi : Alphabetic hi) (hlt : lo < hi) {index : ℕ}
  (hagree : ∀ i < index, value lo i = value hi i)

include hlo hhi hlt hagree

/-- **Where the bounds agree so far, the lower has no greater digit next.** -/
theorem value_le_value : value lo index ≤ value hi index := by
  by_contra hgt
  rw [not_le] at hgt
  have hpath := path_congr hagree
  by_cases hindex : index < hi.length
  · obtain ⟨rest, hrest⟩ := eq_path_cons hhi hindex
    have hless := path_lt hlo hgt rest
    rw [hpath, ← hrest] at hless
    exact lt_asymm hlt hless
  · obtain ⟨s, hs⟩ := path_past hhi (not_lt.mp hindex)
    obtain ⟨rest, hrest⟩ := eq_path_cons hlo (lt_length_of_value (Nat.zero_lt_of_lt hgt))
    have hless := lt_append hi.data (s := s ++ digit (value lo index) :: rest) (by simp)
    rw [← List.append_assoc, ← hs, ← hpath, ← hrest] at hless
    exact lt_asymm hlt hless

/-- **Where the bounds agree so far, the upper one goes on.** -/
theorem lt_length_of_agree (hlast : hi.data.getLast? ≠ some (digit 0)) (hne : hi.data ≠ []) :
    index < hi.length := by
  by_contra hindex
  rw [not_lt] at hindex
  have hpath : path lo hi.length = hi.data := by
    rw [path_congr fun i hi' => hagree i (hi'.trans_le hindex), path_eq_take hhi le_rfl]
    exact List.take_length
  by_cases hlength : hi.length ≤ lo.length
  · -- The upper bound would be a beginning of the lower.
    rw [path_eq_take hlo hlength] at hpath
    have hsplit : (⟨hi.data ++ lo.data.drop hi.length⟩ : Text) = lo :=
      Bytes.ext (by rw [← hpath, List.take_append_drop])
    by_cases hrest : lo.data.drop hi.length = []
    · rw [hrest, List.append_nil] at hsplit
      exact hlt.ne hsplit.symm
    · exact lt_asymm hlt (hsplit ▸ lt_append hi.data hrest)
  · -- The upper bound would end in a zero.
    have hpos : 0 < hi.length := List.length_pos_iff.mpr hne
    have hzero : value hi (hi.length - 1) = 0 := by
      rw [← hagree (hi.length - 1) (by omega)]
      exact value_past (by omega)
    refine hlast ?_
    rw [List.getLast?_eq_getElem?, ← hzero]
    exact digit_value hhi (Nat.sub_lt hpos Nat.one_pos)

end Bounds

/-! ## The walk -/

/-- The walk at a position: what has been placed are the digits of the lower bound, and either
those of the upper one, or already below it. -/
structure Walking (lo : Text) (hi : Option Text) (index : ℕ) (bounded : Bool)
    (out : List UInt8) : Prop where
  placed : out = path lo index
  agree : bounded = true → ∃ upper, hi = some upper ∧ ∀ i < index, value lo i = value upper i
  below : bounded = false → ∀ upper, hi = some upper → ∀ s, (⟨out ++ s⟩ : Text) < upper

section Walk

variable {lo : Text} {hi : Option Text} (hlo : Alphabetic lo)
  (hhi : ∀ upper, hi = some upper → valid upper = true ∧ lo < upper)

theorem Walking.start : Walking lo hi 0 hi.isSome [] where
  placed := rfl
  agree h := by
    obtain ⟨upper, rfl⟩ := Option.isSome_iff_exists.mp h
    exact ⟨upper, rfl, fun _ h => absurd h (Nat.not_lt_zero _)⟩
  below h upper hupper := by
    rw [hupper] at h
    cases h

variable {index : ℕ} {bounded : Bool} {out : List UInt8}

theorem ceiling_le : ceiling hi bounded index ≤ 62 := by
  unfold ceiling
  rw [length_digits]
  split
  next upper =>
    split
    next => exact (value_lt upper index).le
    next => exact le_rfl
  next => exact le_rfl

theorem ceiling_unbounded : ceiling hi false index = 62 := by
  unfold ceiling
  rw [length_digits]
  cases hi <;> rfl

/-- **A digit between the bounds' ends the walk strictly between them.** -/
theorem Walking.between (h : Walking lo hi index bounded out) (hlo : Alphabetic lo)
    (hhi : ∀ upper, hi = some upper → Alphabetic upper) {n : ℕ} (hlow : value lo index < n)
    (hhigh : n < ceiling hi bounded index) :
    lo < ⟨out ++ [digit n]⟩ ∧ ∀ upper, hi = some upper → (⟨out ++ [digit n]⟩ : Text) < upper := by
  constructor
  · rw [h.placed]
    exact lt_path hlo hlow (hhigh.trans_le ceiling_le) []
  · intro upper hupper
    cases bounded with
    | false => exact h.below rfl upper hupper _
    | true =>
        obtain ⟨upper', hupper', hagree⟩ := h.agree rfl
        obtain rfl : upper' = upper := Option.some.inj (hupper'.symm.trans hupper)
        subst hupper
        rw [h.placed, path_congr hagree]
        exact path_lt (hhi upper' rfl) hhigh []

include hlo hhi

/-- The lower bound's digit is never the greater: what the source subtracts from leaves nothing
below zero. -/
theorem Walking.value_le_ceiling (h : Walking lo hi index bounded out) :
    value lo index ≤ ceiling hi bounded index := by
  cases bounded with
  | false =>
      rw [ceiling_unbounded]
      exact (value_lt lo index).le
  | true =>
      obtain ⟨upper, rfl, hagree⟩ := h.agree rfl
      obtain ⟨hvalid, hlt⟩ := hhi upper rfl
      exact value_le_value hlo (valid_iff.mp hvalid).2.2.1 hlt hagree

/-- **A digit without room is followed.** -/
theorem Walking.next (h : Walking lo hi index bounded out)
    (hroom : ¬ 1 < ceiling hi bounded index - value lo index) :
    Walking lo hi (index + 1) (bounded && !decide (value lo index < ceiling hi bounded index))
      (out ++ [digit (value lo index)]) where
  placed := by rw [h.placed, path_succ]
  agree hbounded := by
    rw [Bool.and_eq_true, Bool.not_eq_true', decide_eq_false_iff_not] at hbounded
    obtain ⟨rfl, hle⟩ := hbounded
    have hge := h.value_le_ceiling hlo hhi
    obtain ⟨upper, rfl, hagree⟩ := h.agree rfl
    refine ⟨upper, rfl, fun i hi => ?_⟩
    rcases Nat.lt_succ_iff_lt_or_eq.mp hi with hi | rfl
    · exact hagree i hi
    · exact le_antisymm hge (not_lt.mp hle)
  below hbounded upper hupper s := by
    rw [List.append_assoc]
    cases bounded with
    | false => exact h.below rfl upper hupper _
    | true =>
        obtain ⟨upper', hupper', hagree⟩ := h.agree rfl
        obtain rfl : upper' = upper := Option.some.inj (hupper'.symm.trans hupper)
        subst hupper
        have hless : value lo index < value upper' index := by simpa [ceiling] using hbounded
        rw [h.placed, path_congr hagree]
        exact path_lt (valid_iff.mp (hhi upper' rfl).1).2.2.1 hless s

/-- **Whatever the walk returns lies between the bounds.** -/
theorem walk_between {fuel : ℕ} (h : Walking lo hi index bounded out) {rank : Text}
    (hwalk : walk lo hi fuel index bounded out = some rank) :
    valid rank = true ∧ lo < rank ∧ ∀ upper, hi = some upper → rank < upper := by
  induction fuel generalizing index bounded out with
  | zero => cases hwalk
  | succ fuel ih =>
      rw [walk] at hwalk
      dsimp only at hwalk
      split at hwalk
      next hroom =>
        split at hwalk
        next hvalid =>
          cases hwalk
          have halphabetic : ∀ upper, hi = some upper → Alphabetic upper := fun upper hupper =>
            (valid_iff.mp (hhi upper hupper).1).2.2.1
          exact ⟨hvalid, h.between hlo halphabetic (by omega) (by omega)⟩
        next => cases hwalk
      next hroom => exact ih (h.next hlo hhi hroom) hwalk

/-- **The walk ends.**  Where both bounds are shorter than the limit it finds room at the
latest one past the longer. -/
theorem exists_walk {longest fuel : ℕ} (h : Walking lo hi index bounded out)
    (hfuel : index + fuel = MAX_BYTES) (hindex : index ≤ longest) (hlongest : longest < MAX_BYTES)
    (hlower : lo.length ≤ longest)
    (hupper : ∀ upper, hi = some upper → upper.length ≤ longest) :
    ∃ rank, walk lo hi fuel index bounded out = some rank ∧ rank.length ≤ longest + 1 := by
  induction fuel generalizing index bounded out with
  | zero => omega
  | succ fuel ih =>
      rw [walk]
      dsimp only
      by_cases hroom : 1 < ceiling hi bounded index - value lo index
      case pos =>
        have hceiling : ceiling hi bounded index ≤ 62 := ceiling_le
        rw [if_pos hroom, h.placed, valid_path_append lo (by omega) (by omega) (by omega), if_pos rfl]
        refine ⟨_, rfl, ?_⟩
        show (path lo index ++ [_]).length ≤ longest + 1
        rw [List.length_append, length_path, List.length_singleton]
        omega
      case neg =>
        rw [if_neg hroom]
        refine ih (h.next hlo hhi hroom) (by omega) ?_
        -- Without room there is a digit here, of the upper bound or of the lower.
        cases bounded with
        | true =>
            obtain ⟨upper, rfl, hagree⟩ := h.agree rfl
            obtain ⟨hvalid, hlt⟩ := hhi upper rfl
            obtain ⟨hne, -, halphabetic, hlast⟩ := valid_iff.mp hvalid
            have hmore := lt_length_of_agree hlo halphabetic hlt hagree hlast hne
            exact hmore.trans_le (hupper upper rfl)
        | false =>
            rw [ceiling_unbounded] at hroom
            exact (lt_length_of_value (by omega)).trans_le hlower

end Walk

/-! ## Ranks between two -/

/-- Bounds a rank is looked for between: ranks, the lower one possibly empty and the upper one
possibly absent, in order. -/
def Bounds (lo : Text) (hi : Option Text) : Prop :=
  (lo.data = [] ∨ valid lo = true) ∧ ∀ upper, hi = some upper → valid upper = true ∧ lo < upper

theorem Bounds.alphabetic {lo : Text} {hi : Option Text} (h : Bounds lo hi) : Alphabetic lo := by
  rcases h.1 with hnil | hvalid
  · intro byte hbyte
    rw [hnil] at hbyte
    exact absurd hbyte List.not_mem_nil
  · exact (valid_iff.mp hvalid).2.2.1

/-- Other bounds are refused. -/
theorem tryBetween_eq (lo : Text) (hi : Option Text) [Decidable (Bounds lo hi)] :
    tryBetween lo hi = if Bounds lo hi then walk lo hi MAX_BYTES 0 hi.isSome [] else none := by
  have hguard : (!lo.data.isEmpty && !valid lo || hi.any (fun hi => !valid hi) ||
      hi.any (fun hi => hi ≤ lo)) = true ↔ ¬ Bounds lo hi := by
    unfold Bounds
    cases hi with
    | none => simp
    | some upper =>
        have hnil : lo.data.isEmpty = true ↔ lo.data = [] := List.isEmpty_iff
        have hle : upper ≤ lo ↔ ¬ lo < upper := not_lt.symm
        cases hempty : lo.data.isEmpty <;> cases hlow : valid lo <;> cases hhigh : valid upper <;>
          simp_all
  unfold tryBetween
  by_cases h : Bounds lo hi
  · rw [if_pos h, if_neg (hguard.not.mpr (not_not.mpr h))]
  · rw [if_neg h, if_pos (hguard.mpr h)]

/-- **What is found lies strictly between the bounds.** -/
theorem tryBetween_between {lo : Text} {hi : Option Text} {rank : Text}
    (h : tryBetween lo hi = some rank) :
    valid rank = true ∧ lo < rank ∧ ∀ upper, hi = some upper → rank < upper := by
  classical
  rw [tryBetween_eq] at h
  split at h
  next hbounds => exact walk_between hbounds.alphabetic hbounds.2 .start h
  next => cases h

/-- **Between bounds below the limit something is found.** -/
theorem exists_tryBetween {lo : Text} {hi : Option Text} (hbounds : Bounds lo hi) {longest : ℕ}
    (hlongest : longest < MAX_BYTES) (hlower : lo.length ≤ longest)
    (hupper : ∀ upper, hi = some upper → upper.length ≤ longest) :
    ∃ rank, tryBetween lo hi = some rank ∧ rank.length ≤ longest + 1 := by
  classical
  rw [tryBetween_eq, if_pos hbounds]
  exact exists_walk hbounds.alphabetic hbounds.2 .start (Nat.zero_add _) (Nat.zero_le _) hlongest
    hlower hupper

/-- The labels of an interval ascend inside it. -/
structure Labels (lo : Text) (hi : Option Text) (labels : List Text) : Prop where
  ascending : labels.Pairwise (· < ·)
  inside : ∀ rank ∈ labels, valid rank = true ∧ lo < rank ∧ ∀ upper, hi = some upper → rank < upper

/-- A label between the labels of its halves. -/
theorem Labels.join {lo : Text} {hi : Option Text} {rank : Text} {before after : List Text}
    (hrank : valid rank = true ∧ lo < rank ∧ ∀ upper, hi = some upper → rank < upper)
    (hbefore : Labels lo (some rank) before) (hafter : Labels rank hi after) :
    Labels lo hi (before ++ rank :: after) where
  ascending := by
    refine List.pairwise_append.mpr ⟨hbefore.ascending, ?_, ?_⟩
    · exact List.pairwise_cons.mpr ⟨fun r hr => (hafter.inside r hr).2.1, hafter.ascending⟩
    · intro r hr r' hr'
      have hless := (hbefore.inside r hr).2.2 rank rfl
      rcases List.mem_cons.mp hr' with rfl | hr'
      · exact hless
      · exact hless.trans (hafter.inside r' hr').2.1
  inside r hr := by
    rcases List.mem_append.mp hr with hr | hr
    · obtain ⟨hvalid, hlo, hless⟩ := hbefore.inside r hr
      exact ⟨hvalid, hlo, fun upper hupper => (hless rank rfl).trans (hrank.2.2 upper hupper)⟩
    · rcases List.mem_cons.mp hr with rfl | hr
      · exact hrank
      · obtain ⟨hvalid, hless, hupper⟩ := hafter.inside r hr
        exact ⟨hvalid, hrank.2.1.trans hless, hupper⟩

/-- **Filling gives so many labels, ascending inside the interval.** -/
theorem fill_labels {count : ℕ} {lo : Text} {hi : Option Text} {labels : List Text}
    (h : fill count lo hi = some labels) : labels.length = count ∧ Labels lo hi labels := by
  induction count using Nat.strong_induction_on generalizing lo hi labels with
  | h count ih =>
      unfold fill at h
      split at h
      next hzero =>
        cases h
        exact ⟨hzero.symm, .nil, fun _ h => absurd h List.not_mem_nil⟩
      next hpos =>
        obtain ⟨rank, hrank, h⟩ := Option.bind_eq_some_iff.mp h
        obtain ⟨before, hbefore, h⟩ := Option.bind_eq_some_iff.mp h
        obtain ⟨after, hafter, h⟩ := Option.bind_eq_some_iff.mp h
        cases h
        obtain ⟨hlength, hlabels⟩ := ih _ (by omega) hbefore
        obtain ⟨hlength', hlabels'⟩ := ih _ (by omega) hafter
        refine ⟨?_, .join (tryBetween_between hrank) hlabels hlabels'⟩
        rw [List.length_append, List.length_cons, hlength, hlength']
        omega

/-- **Ranks always fit strictly between their neighbours.** -/
theorem rank_between :
    (∀ (lo : Text) (hi : Option Text), Bounds lo hi → lo.length < MAX_BYTES →
      (∀ upper, hi = some upper → upper.length < MAX_BYTES) →
      ∃ rank, tryBetween lo hi = some rank ∧ valid rank = true ∧ lo < rank ∧
        (∀ upper, hi = some upper → rank < upper) ∧
        rank.length ≤ max lo.length ((hi.map Bytes.length).getD 0) + 1) ∧
    (∀ (lo : Text) (hi : Option Text) (rank : Text), tryBetween lo hi = some rank →
      lo < rank ∧ ∀ upper, hi = some upper → rank < upper) ∧
    ∀ (lo : Text) (hi : Option Text) (count : ℕ) (labels : List Text),
      balancedBetween lo hi count = some labels →
        labels.length = count ∧ labels.Pairwise (· < ·) ∧
        ∀ rank ∈ labels, valid rank = true ∧ lo < rank ∧ ∀ upper, hi = some upper → rank < upper := by
  refine ⟨fun lo hi hbounds hlower hupper => ?_, fun lo hi rank h => (tryBetween_between h).2,
    fun lo hi count labels h => ?_⟩
  · have hlongest : max lo.length ((hi.map Bytes.length).getD 0) < MAX_BYTES := by
      refine max_lt hlower ?_
      cases hi with
      | none => decide
      | some upper => exact hupper upper rfl
    obtain ⟨rank, hrank, hlength⟩ := exists_tryBetween hbounds hlongest (le_max_left _ _) (by
      rintro upper rfl
      exact le_max_right _ _)
    obtain ⟨hvalid, hless, hbelow⟩ := tryBetween_between hrank
    exact ⟨rank, hrank, hvalid, hless, hbelow, hlength⟩
  · unfold balancedBetween at h
    split at h
    next => cases h
    next =>
      obtain ⟨hlength, hlabels⟩ := fill_labels h
      exact ⟨hlength, hlabels.ascending, hlabels.inside⟩

/-- Between neighbours that differ in their last digit by one. -/
theorem rank_between_adjacent : ∃ rank, tryBetween (Bytes.ofString "V") (some (Bytes.ofString "W")) =
    some rank ∧ valid rank = true ∧ Bytes.ofString "V" < rank ∧ rank.length ≤ 2 := by
  have hlo : valid (Bytes.ofString "V") = true := by decide +kernel
  have hhi : valid (Bytes.ofString "W") = true := by decide +kernel
  have hlt : Bytes.ofString "V" < Bytes.ofString "W" := by decide +kernel
  have hshort : (Bytes.ofString "V").length < MAX_BYTES := by decide +kernel
  have hshort' : (Bytes.ofString "W").length < MAX_BYTES := by decide +kernel
  obtain ⟨rank, hrank, hvalid, hless, -, hlength⟩ := rank_between.1 (Bytes.ofString "V")
    (some (Bytes.ofString "W"))
    ⟨.inr hlo, fun upper hupper => Option.some.inj hupper ▸ ⟨hhi, hlt⟩⟩ hshort
    fun upper hupper => Option.some.inj hupper ▸ hshort'
  exact ⟨rank, hrank, hvalid, hless, hlength.trans (by decide +kernel)⟩

end Lait.Issues.Rank
