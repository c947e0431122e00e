import LocalStack.Lib.Fields
import LocalStack.Lib.Lists
import Mathlib.Algebra.GroupWithZero.Nat

/-! `compress_logger_name` of `logging/format.py`. -/

namespace LocalStack.Logging
open LocalStack.Fields LocalStack.Text

/-! ## The function -/

/-- `p[0]`; `none` is an `IndexError`. -/
def letter (p : Str) : Option Str := p.head?.map fun c => [c]

/-- The loop over the parts, the last one of the name first; `first` says whether the loop
begins. -/
def expand (length : Int) : Bool → Int → List Str → Option (List Str)
  | _, _, [] => some []
  | first, cur_length, part :: parts =>
    let next_len := cur_length + ((part.length : Int) - 1)
    if next_len > length then
      ((part :: parts).mapM letter).map fun letters =>
        let remaining := length - cur_length
        if first = true ∧ remaining > 0 then letters.set 0 (part.take (remaining + 1).toNat)
        else letters
    else (expand length false next_len parts).map (part :: ·)

def compress_logger_name (name : Str) (length : Nat) : Option Str :=
  if name.length ≤ length then some name
  else
    let parts := (name.splitOn '.').reverse
    (expand length true (parts.length * 2 - 1) parts).map fun new_parts =>
      join '.' new_parts.reverse

example : compress_logger_name "my.very.long.logger.name".toList 17 =
    some "m.v.l.logger.name".toList := by decide

/-! ## What is asked of it -/

/-- The parts with all but the last `n` of them reduced to at most one character. -/
def reduced (parts : List Str) (n : Nat) : List Str :=
  (parts.take (parts.length - n)).map (List.take 1) ++ parts.drop (parts.length - n)

/-- A name that is too long keeps its segments, fits as far as it can, and has as many whole
segments at its end as fit. -/
structure Compressed (name : Str) (length : Nat) (result : Str) : Prop where
  prefixes : List.Forall₂ (· <+: ·) (result.splitOn '.') (name.splitOn '.')
  bound : result.length ≤ max length (2 * (name.splitOn '.').length - 1)
  expanded : ∀ n ≤ (name.splitOn '.').length,
    (join '.' (reduced (name.splitOn '.') n)).length ≤ length →
      (result.splitOn '.').drop ((name.splitOn '.').length - n) =
        (name.splitOn '.').drop ((name.splitOn '.').length - n)

/-- The result for a name. -/
def Compresses (name : Str) (length : Nat) : Prop :=
  ∃ result, compress_logger_name name length = some result ∧
    if name.length ≤ length then result = name else Compressed name length result

def total (parts : List Str) : Nat := (parts.map List.length).sum

/-- The length with these parts expanded and one character for each other one. -/
def estimate (cur_length : Int) (parts : List Str) : Int :=
  cur_length + ((total parts : Int) - parts.length)

/-- Segments with an empty one on their left, or empty themselves, are expanded. -/
def EmptyExpanded (name : Str) (length : Nat) : Prop :=
  ∀ left part right, name.splitOn '.' = left ++ part :: right → [] ∈ left ++ [part] →
    estimate (2 * (name.splitOn '.').length - 1) (part :: right) ≤ length

/-! ## The loop -/

theorem estimate_cons (cur_length : Int) (part : Str) (parts : List Str) :
    estimate cur_length (part :: parts) =
      estimate (cur_length + ((part.length : Int) - 1)) parts := by
  simp only [estimate, total, List.map_cons, List.sum_cons, List.length_cons]
  omega

theorem mapM_letter {parts : List Str} (h : [] ∉ parts) :
    parts.mapM letter = some (parts.map (List.take 1)) := by
  induction parts with
  | nil => rfl
  | cons part parts ih =>
    rw [List.mem_cons, not_or] at h
    obtain ⟨c, part, rfl⟩ := List.exists_cons_of_ne_nil (Ne.symm h.1)
    rw [List.mapM_cons, ih h.2]
    rfl

theorem mapM_letter_of_mem {parts : List Str} (h : [] ∈ parts) : parts.mapM letter = none := by
  induction parts with
  | nil => exact absurd h List.not_mem_nil
  | cons part parts ih =>
    rw [List.mapM_cons]
    rcases List.mem_cons.mp h with rfl | h
    · rfl
    · rw [ih h]
      cases letter part <;> rfl

/-- The loop ends without an error when it does not stop where an empty part is left. -/
theorem expand_isSome_iff (length : Int) (first : Bool) (cur_length : Int) (parts : List Str) :
    (expand length first cur_length parts).isSome ↔
      ∀ before part after, parts = before ++ part :: after → [] ∈ part :: after →
        estimate cur_length (before ++ [part]) ≤ length := by
  induction parts generalizing first cur_length with
  | nil => simp [expand]
  | cons part parts ih =>
    rw [expand]
    have hone : estimate cur_length ([] ++ [part]) = cur_length + ((part.length : Int) - 1) := by
      simp [estimate, total]
    split
    · next hlen =>
      rw [Option.isSome_map]
      constructor
      · intro hsome before p after hparts hmem
        have hmem' : [] ∈ part :: parts := by
          rw [hparts]
          exact List.mem_append_right _ hmem
        rw [mapM_letter_of_mem hmem'] at hsome
        cases hsome
      · intro h
        by_cases hmem : [] ∈ part :: parts
        · have hle := h [] part parts rfl hmem
          rw [hone] at hle
          omega
        · rw [mapM_letter hmem]
          rfl
    · next hlen =>
      rw [Option.isSome_map, ih]
      constructor
      · rintro h (_ | ⟨p, before⟩) q after hparts hmem
        · obtain ⟨rfl, rfl⟩ := List.cons.inj hparts
          rw [hone]
          omega
        · obtain ⟨rfl, rfl⟩ := List.cons.inj hparts
          rw [List.cons_append, estimate_cons]
          exact h before q after rfl hmem
      · rintro h before q after rfl hmem
        rw [← estimate_cons, ← List.cons_append]
        exact h (part :: before) q after rfl hmem

/-- The parts after the one that does not fit are letters. -/
structure Stops (length : Int) (first : Bool) (cur_length : Int) (parts result : List Str)
    (done : List Str) (part shown : Str) (rest : List Str) : Prop where
  parts : parts = done ++ part :: rest
  result : result = done ++ shown :: rest.map (List.take 1)
  nonempty : [] ∉ part :: rest
  fits : done ≠ [] → estimate cur_length done ≤ length
  exceeds : length < estimate cur_length (done ++ [part])
  shown : shown = part.take 1 ∨ (first = true ∧ done = [] ∧ cur_length < length ∧
    shown = part.take (length - cur_length + 1).toNat)

section
variable {length : Int} {first : Bool} {cur_length : Int} {part : Str} {parts : List Str}

theorem estimate_singleton :
    estimate cur_length [part] = cur_length + ((part.length : Int) - 1) := by
  simp [estimate, total]

/-- The loop stops at a part that does not fit. -/
theorem stops_here {result : List Str} (hlen : cur_length + ((part.length : Int) - 1) > length)
    (hexpand : expand length first cur_length (part :: parts) = some result) :
    ∃ shown, Stops length first cur_length (part :: parts) result [] part shown parts := by
  rw [expand, if_pos hlen] at hexpand
  have hmem : [] ∉ part :: parts := by
    intro hmem
    rw [mapM_letter_of_mem hmem] at hexpand
    cases hexpand
  rw [mapM_letter hmem, Option.map_some] at hexpand
  obtain rfl := Option.some.inj hexpand
  have hexceeds : length < estimate cur_length ([] ++ [part]) := by
    rw [List.nil_append, estimate_singleton]
    exact hlen
  by_cases hroom : first = true ∧ length - cur_length > 0
  · refine ⟨part.take (length - cur_length + 1).toNat, rfl, ?_, hmem,
      fun hne => absurd rfl hne, hexceeds, .inr ⟨hroom.1, rfl, by omega, rfl⟩⟩
    rw [if_pos hroom]
    rfl
  · refine ⟨part.take 1, rfl, ?_, hmem, fun hne => absurd rfl hne, hexceeds, .inl rfl⟩
    rw [if_neg hroom]
    rfl

/-- A part that fits stands in front of those where the loop stops. -/
theorem Stops.cons {new_parts done rest : List Str} {q shown : Str}
    (hstops : Stops length false (cur_length + ((part.length : Int) - 1)) parts new_parts done q
      shown rest) (hlen : cur_length + ((part.length : Int) - 1) ≤ length) :
    Stops length first cur_length (part :: parts) (part :: new_parts) (part :: done) q shown rest
    where
  parts := by rw [hstops.parts, List.cons_append]
  result := by rw [hstops.result, List.cons_append]
  nonempty := hstops.nonempty
  fits _ := by
    rw [estimate_cons]
    by_cases hdone : done = []
    · simp only [hdone, estimate, total, List.map_nil, List.sum_nil, List.length_nil]
      omega
    · exact hstops.fits hdone
  exceeds := by
    rw [List.cons_append, estimate_cons]
    exact hstops.exceeds
  shown := by
    rcases hstops.shown with hshown | ⟨hfirst, -⟩
    · exact .inl hshown
    · cases hfirst

end

theorem expand_cases {length : Int} {first : Bool} {cur_length : Int} {parts result : List Str}
    (h : expand length first cur_length parts = some result) :
    (parts ≠ [] → estimate cur_length parts ≤ length) ∨
      ∃ done part shown rest, Stops length first cur_length parts result done part shown rest := by
  induction parts generalizing first cur_length result with
  | nil => exact .inl fun hne => absurd rfl hne
  | cons part parts ih =>
    by_cases hlen : cur_length + ((part.length : Int) - 1) > length
    · obtain ⟨shown, hstops⟩ := stops_here hlen h
      exact .inr ⟨[], part, shown, parts, hstops⟩
    · rw [expand, if_neg hlen] at h
      obtain ⟨new_parts, hnew, rfl⟩ := Option.map_eq_some_iff.mp h
      rcases ih hnew with hfits | ⟨done, q, shown, rest, hstops⟩
      · left
        intro _
        rw [estimate_cons]
        by_cases hparts : parts = []
        · simp only [hparts, estimate, total, List.map_nil, List.sum_nil, List.length_nil]
          omega
        · exact hfits hparts
      · exact .inr ⟨part :: done, q, shown, rest, hstops.cons (by omega)⟩

/-! ## Lengths -/

theorem total_append (parts parts' : List Str) :
    total (parts ++ parts') = total parts + total parts' := by
  simp [total]

theorem total_cons (part : Str) (parts : List Str) :
    total (part :: parts) = part.length + total parts := by
  simp [total]

theorem total_reverse (parts : List Str) : total parts.reverse = total parts := by
  simp [total, List.map_reverse, List.sum_reverse]

theorem estimate_reverse (cur_length : Int) (parts : List Str) :
    estimate cur_length parts.reverse = estimate cur_length parts := by
  rw [estimate, estimate, total_reverse, List.length_reverse]

theorem length_join {parts : List Str} (h : parts ≠ []) :
    (join '.' parts).length + 1 = total parts + parts.length := by
  induction parts with
  | nil => exact absurd rfl h
  | cons part parts ih =>
    by_cases hparts : parts = []
    · simp [hparts, total]
    · have hrest := ih hparts
      rw [join_cons part hparts, total_cons, List.length_append, List.length_cons, List.length_cons]
      omega

theorem length_le_total {parts : List Str} (h : [] ∉ parts) : parts.length ≤ total parts := by
  induction parts with
  | nil => exact Nat.zero_le _
  | cons part parts ih =>
    rw [List.mem_cons, not_or] at h
    have hrest := ih h.2
    have hpart := List.length_pos_iff.mpr (Ne.symm h.1)
    rw [total_cons, List.length_cons]
    omega

theorem total_letters {parts : List Str} (h : [] ∉ parts) :
    total (parts.map (List.take 1)) = parts.length := by
  induction parts with
  | nil => rfl
  | cons part parts ih =>
    rw [List.mem_cons, not_or] at h
    have hpart := List.length_pos_iff.mpr (Ne.symm h.1)
    rw [List.map_cons, total_cons, ih h.2, List.length_take, List.length_cons]
    omega

theorem estimate_name {name : Str} {length : Nat} (h : length < name.length) :
    ¬estimate (((name.splitOn '.').reverse.length : Int) * 2 - 1) (name.splitOn '.').reverse ≤
      length := by
  have hlen := length_join (@splitOn_ne_nil '.' name)
  rw [join_splitOn] at hlen
  rw [estimate_reverse, estimate, List.length_reverse]
  omega

/-! ## What the loop leaves -/

section
variable {name : Str} {length : Nat} {left right : List Str} {part shown : Str}

/-- Segments before the one that does not fit are letters, those behind it are whole. -/
structure Cut (name : Str) (length : Nat) (left : List Str) (part shown : Str)
    (right : List Str) : Prop where
  parts : name.splitOn '.' = left ++ part :: right
  nonempty : [] ∉ left ++ [part]
  fits : right ≠ [] → estimate (2 * (name.splitOn '.').length - 1) right ≤ length
  exceeds : length < estimate (2 * (name.splitOn '.').length - 1) (part :: right)
  shown : shown = part.take 1 ∨ (right = [] ∧ 2 * (name.splitOn '.').length - 1 < length ∧
    shown = part.take (length + 2 - 2 * (name.splitOn '.').length))

/-- The segments of the result. -/
def segments (left : List Str) (shown : Str) (right : List Str) : List Str :=
  left.map (List.take 1) ++ shown :: right

theorem compress_cases (hlen : length < name.length) {result : Str}
    (h : compress_logger_name name length = some result) :
    ∃ left part shown right, Cut name length left part shown right ∧
      result = join '.' (segments left shown right) := by
  rw [compress_logger_name, if_neg (Nat.not_le.mpr hlen)] at h
  obtain ⟨new_parts, hnew, rfl⟩ := Option.map_eq_some_iff.mp h
  rcases expand_cases hnew with hfits | ⟨done, part, shown, rest, hstops⟩
  · have hne : (name.splitOn '.').reverse ≠ [] := by simp
    exact absurd (hfits hne) (estimate_name hlen)
  have hcur : (((name.splitOn '.').reverse.length : Int) * 2 - 1) =
      2 * (name.splitOn '.').length - 1 := by
    rw [List.length_reverse, Int.mul_comm]
  rw [hcur] at hstops
  refine ⟨rest.reverse, part, shown, done.reverse, ⟨?_, ?_, ?_, ?_, ?_⟩, ?_⟩
  · rw [← List.reverse_reverse (name.splitOn '.'), hstops.parts]
    simp
  · have hnonempty := hstops.nonempty
    simp only [List.mem_cons, List.mem_append, List.mem_reverse, List.not_mem_nil, or_false] at *
    exact fun h => hnonempty h.symm
  · intro hdone
    rw [estimate_reverse]
    exact hstops.fits fun hnil => hdone (by rw [hnil]; rfl)
  · rw [← estimate_reverse]
    simpa using hstops.exceeds
  · rcases hstops.shown with hshown | ⟨-, rfl, hroom, hshown⟩
    · exact .inl hshown
    · have hpos := List.length_pos_iff.mpr (@splitOn_ne_nil '.' name)
      have hroom' : 2 * (name.splitOn '.').length - 1 < length := by omega
      have htake : ((length : Int) - (2 * (name.splitOn '.').length - 1) + 1).toNat =
          length + 2 - 2 * (name.splitOn '.').length := by omega
      rw [htake] at hshown
      exact .inr ⟨rfl, hroom', hshown⟩
  · rw [hstops.result, segments]
    simp [List.map_reverse]

variable (hcut : Cut name length left part shown right)
include hcut

theorem length_parts : (name.splitOn '.').length = left.length + 1 + right.length := by
  rw [hcut.parts, List.length_append, List.length_cons]
  omega

theorem not_mem_left : [] ∉ left := fun h => hcut.nonempty (List.mem_append_left _ h)

theorem prefixes_segments : List.Forall₂ (· <+: ·) (segments left shown right)
    (name.splitOn '.') := by
  rw [hcut.parts, segments]
  have hleft : List.Forall₂ (· <+: ·) (left.map (List.take 1)) left := by
    rw [List.forall₂_map_left_iff, List.forall₂_same]
    exact fun p _ => List.take_prefix 1 p
  have hshown : shown <+: part := by
    rcases hcut.shown with rfl | ⟨-, -, rfl⟩
    · exact List.take_prefix _ _
    · exact List.take_prefix _ _
  have hright : List.Forall₂ (· <+: ·) right right :=
    List.forall₂_same.mpr fun p _ => List.prefix_refl p
  exact List.rel_append hleft (.cons hshown hright)

theorem splitOn_segments : (join '.' (segments left shown right)).splitOn '.' =
    segments left shown right := by
  have hdots : ∀ p ∈ left ++ part :: right, '.' ∉ p := by
    rw [← hcut.parts]
    exact fun p hp => Lists.not_mem_of_mem_splitOn hp
  have hpart := hdots part (by simp)
  refine splitOn_join (by simp [segments]) fun seg hseg => ?_
  rcases List.mem_append.mp hseg with hseg | hseg
  · obtain ⟨p, hp, rfl⟩ := List.mem_map.mp hseg
    exact fun h => hdots p (List.mem_append_left _ hp) (List.mem_of_mem_take h)
  · rcases List.mem_cons.mp hseg with rfl | hseg
    · rcases hcut.shown with rfl | ⟨-, -, rfl⟩
      · exact fun h => hpart (List.mem_of_mem_take h)
      · exact fun h => hpart (List.mem_of_mem_take h)
    · exact hdots seg (by simp [hseg])

theorem length_result : (join '.' (segments left shown right)).length ≤
    max length (2 * (name.splitOn '.').length - 1) := by
  have hjoin := @length_join (segments left shown right) (by simp [segments])
  have hparts := length_parts hcut
  have hletters := total_letters (not_mem_left hcut)
  rw [segments, total_append, total_cons, hletters, ← segments] at hjoin
  have hlen : (segments left shown right).length = (name.splitOn '.').length := by
    simp only [segments, List.length_append, List.length_map, List.length_cons]
    omega
  rw [hlen] at hjoin
  have hfits := hcut.fits
  rcases hcut.shown with rfl | ⟨rfl, hroom, rfl⟩
  · have hone := List.length_take_le 1 part
    by_cases hright : right = []
    · subst hright
      simp only [total, List.map_nil, List.sum_nil] at hjoin
      omega
    · have hle := hfits hright
      rw [estimate] at hle
      omega
  · have hshown := List.length_take_le (length + 2 - 2 * (name.splitOn '.').length) part
    simp only [total, List.map_nil, List.sum_nil, List.length_nil] at hjoin hparts
    omega

theorem expanded_segments {n : Nat} (hn : n ≤ (name.splitOn '.').length)
    (hfits : (join '.' (reduced (name.splitOn '.') n)).length ≤ length) :
    (segments left shown right).drop ((name.splitOn '.').length - n) =
      (name.splitOn '.').drop ((name.splitOn '.').length - n) := by
  have hparts := length_parts hcut
  by_cases hle : n ≤ right.length
  · have hdrop : ∀ (l : List Str) (p : Str), l.length = left.length →
        (l ++ p :: right).drop (left.length + 1 + right.length - n) =
          right.drop (right.length - n) := by
      intro l p hl
      have hcount : left.length + 1 + right.length - n =
          (l ++ [p]).length + (right.length - n) := by
        rw [List.length_append, hl, List.length_singleton]
        omega
      rw [hcount, List.append_cons l p right, List.drop_length_add_append]
    rw [hparts, segments, hdrop _ _ (List.length_map _), hcut.parts, hdrop _ _ rfl]
  · -- the segment that does not fit would have to be whole
    exfalso
    have hexceeds := hcut.exceeds
    have hcount : left.length + 1 + right.length - n ≤ left.length := by omega
    have hreduced : reduced (name.splitOn '.') n =
        (left.take (left.length + 1 + right.length - n)).map (List.take 1) ++
          (left.drop (left.length + 1 + right.length - n) ++ part :: right) := by
      rw [reduced, hparts, hcut.parts, List.take_append_of_le_length hcount,
        List.drop_append_of_le_length hcount]
    have hnot : [] ∉ left := not_mem_left hcut
    have htake : total ((left.take (left.length + 1 + right.length - n)).map (List.take 1)) =
        left.length + 1 + right.length - n := by
      rw [total_letters fun h => hnot (List.mem_of_mem_take h), List.length_take]
      omega
    have hrest := length_le_total fun h : [] ∈ left.drop (left.length + 1 + right.length - n) =>
      hnot (List.mem_of_mem_drop h)
    have hjoin := @length_join (reduced (name.splitOn '.') n) (by simp [hreduced])
    have hlen : (reduced (name.splitOn '.') n).length = (name.splitOn '.').length := by
      rw [reduced, List.length_append, List.length_map, ← List.length_append,
        List.take_append_drop]
    rw [hlen, hreduced, total_append, total_append, htake, ← hreduced] at hjoin
    rw [List.length_drop] at hrest
    rw [estimate, total_cons, List.length_cons] at hexceeds
    rw [total_cons] at hjoin
    omega

end

/-- The condition in the order of the loop. -/
theorem emptyExpanded_iff (name : Str) (length : Nat) : EmptyExpanded name length ↔
    ∀ before part after, (name.splitOn '.').reverse = before ++ part :: after →
      [] ∈ part :: after →
        estimate (((name.splitOn '.').reverse.length : Int) * 2 - 1) (before ++ [part]) ≤
          length := by
  have hcur : ((name.splitOn '.').reverse.length : Int) * 2 - 1 =
      2 * (name.splitOn '.').length - 1 := by
    rw [List.length_reverse, Int.mul_comm]
  rw [hcur]
  constructor
  · intro h before part after hparts hmem
    have hsplit : name.splitOn '.' = after.reverse ++ part :: before.reverse := by
      rw [← List.reverse_reverse (name.splitOn '.'), hparts]
      simp
    have hle := h after.reverse part before.reverse hsplit (by simpa [or_comm] using hmem)
    rwa [← estimate_reverse, List.reverse_cons, List.reverse_reverse] at hle
  · intro h left part right hsplit hmem
    have hparts : (name.splitOn '.').reverse = right.reverse ++ part :: left.reverse := by
      rw [hsplit]
      simp
    have hle := h right.reverse part left.reverse hparts (by simpa [or_comm] using hmem)
    rwa [← List.reverse_cons, estimate_reverse] at hle

/-- A name is compressed as it is meant to be just when no empty segment is reached. -/
theorem compresses_iff (name : Str) (length : Nat) : Compresses name length ↔
    name.length ≤ length ∨ EmptyExpanded name length := by
  by_cases hlen : name.length ≤ length
  · refine iff_of_true ⟨name, if_pos hlen, ?_⟩ (.inl hlen)
    rw [if_pos hlen]
  · have hsome : EmptyExpanded name length ↔
        (compress_logger_name name length).isSome := by
      rw [compress_logger_name, if_neg hlen]
      dsimp only
      rw [Option.isSome_map, expand_isSome_iff]
      exact emptyExpanded_iff name length
    rw [or_iff_right hlen, hsome]
    constructor
    · rintro ⟨result, hresult, -⟩
      rw [hresult]
      rfl
    · intro h
      obtain ⟨result, hresult⟩ := Option.isSome_iff_exists.mp h
      refine ⟨result, hresult, ?_⟩
      rw [if_neg hlen]
      obtain ⟨left, part, shown, right, hcut, rfl⟩ := compress_cases (Nat.lt_of_not_le hlen) hresult
      have hsplit := splitOn_segments hcut
      refine ⟨?_, length_result hcut, fun n hn hfits => ?_⟩
      · rw [hsplit]
        exact prefixes_segments hcut
      · rw [hsplit]
        exact expanded_segments hcut hn hfits

/-- The segment before the last dot is empty. -/
theorem not_compresses_empty : ¬Compresses "a..bcdefghijklmnop".toList 10 := by
  rintro ⟨result, hresult, -⟩
  have hnone : compress_logger_name "a..bcdefghijklmnop".toList 10 = none := by decide
  rw [hnone] at hresult
  cases hresult

end LocalStack.Logging
