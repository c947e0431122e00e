import Mathlib.Data.List.Basic
import Mathlib.Data.List.DropRight
import Mathlib.Data.List.TakeDrop

/-! Strings as sequences of code points, with the string operations of Python
that the protocol code uses. -/

namespace LocalStack.Text

abbrev Str := List Char

instance : LawfulBEq Str := List.instLawfulBEq

/-- The characters of a string are checked, not all characters that there are. -/
instance decidableForallMem (p : Char → Prop) [DecidablePred p] (s : Str) :
    Decidable (∀ c ∈ s, p c) := List.decidableBAll p s

instance decidableForallMemOption (p : Char → Prop) [DecidablePred p] (o : Option Char) :
    Decidable (∀ c ∈ o, p c) := Option.decidableForallMem o

/-- `s.partition(c)`: the part before the first `c`, the separator and the rest;
the last two are empty when there is no `c`. -/
def partition (c : Char) (s : Str) : Str × Str × Str :=
  match s.span (· ≠ c) with
  | (before, sep :: after) => (before, [sep], after)
  | (before, []) => (before, [], [])

theorem ne_of_not_mem {c : Char} {s : Str} (h : c ∉ s) : ∀ x ∈ s, decide (x ≠ c) = true := by
  intro x hx
  rw [decide_eq_true_eq]
  rintro rfl
  exact h hx

theorem partition_of_not_mem {c : Char} {s : Str} (h : c ∉ s) : partition c s = (s, [], []) := by
  have hdrop : s.dropWhile (· ≠ c) = [] := List.dropWhile_eq_nil_iff.mpr (ne_of_not_mem h)
  have htake : s.takeWhile (· ≠ c) = s := List.takeWhile_eq_self_iff.mpr (ne_of_not_mem h)
  rw [partition, List.span_eq_takeWhile_dropWhile, hdrop, htake]

theorem partition_append {c : Char} {s : Str} (h : c ∉ s) (rest : Str) :
    partition c (s ++ c :: rest) = (s, [c], rest) := by
  rw [partition, List.span_eq_takeWhile_dropWhile,
    List.dropWhile_append_of_pos (ne_of_not_mem h), List.takeWhile_append_of_pos (ne_of_not_mem h)]
  simp

theorem partition_cases (c : Char) (s : Str) : (c ∉ s ∧ partition c s = (s, [], [])) ∨
    ∃ t u, c ∉ t ∧ s = t ++ c :: u ∧ partition c s = (t, [c], u) := by
  by_cases h : c ∈ s
  · obtain ⟨t, u, rfl, ht⟩ := List.eq_append_cons_of_mem h
    exact .inr ⟨t, u, ht, rfl, partition_append ht u⟩
  · exact .inl ⟨h, partition_of_not_mem h⟩

/-- `s.rstrip(c)`. -/
def rstrip (c : Char) (s : Str) : Str := s.rdropWhile (· = c)

/-- `s.strip(c)`. -/
def strip (c : Char) (s : Str) : Str := rstrip c (s.dropWhile (· = c))

theorem strip_of_ends {c : Char} {s : Str} (hhead : ∀ x ∈ s.head?, x ≠ c)
    (hlast : ∀ x ∈ s.getLast?, x ≠ c) : strip c s = s := by
  have hfront : s.dropWhile (· = c) = s := by
    cases s with
    | nil => rfl
    | cons x s => rw [List.dropWhile_cons_of_neg (by simpa using hhead x rfl)]
  rw [strip, hfront, rstrip, List.rdropWhile_eq_self_iff]
  intro hne
  simpa using hlast _ (List.getLast?_eq_some_getLast hne)

/-- `s.rpartition(t)` for a non-empty `t`: the part before the last `t`, the
separator and the rest; the first two are empty when there is no `t`. -/
def rpartition (t : Str) : Str → Str × Str × Str
  | [] => ([], [], [])
  | c :: s =>
    match rpartition t s with
    | (_, [], _) =>
      if t.isPrefixOf (c :: s) then ([], t, (c :: s).drop t.length) else ([], [], c :: s)
    | (before, sep, after) => (c :: before, sep, after)

/-- What `rpartition` finds is the last occurrence, and it only misses what is
not there. -/
theorem rpartition_spec {t : Str} (ht : t ≠ []) (s : Str) :
    (∃ before after, rpartition t s = (before, t, after) ∧ s = before ++ t ++ after ∧
      ∀ p u, s = p ++ t ++ u → p.length ≤ before.length) ∨
    (rpartition t s = ([], [], s) ∧ ∀ p u, s ≠ p ++ t ++ u) := by
  induction s with
  | nil =>
    refine .inr ⟨rfl, fun p u h => ht ?_⟩
    have hlen := congrArg List.length h
    simp only [List.length_nil, List.length_append] at hlen
    exact List.eq_nil_of_length_eq_zero (by omega)
  | cons c s ih =>
    rcases ih with ⟨before, after, hr, hs, hlast⟩ | ⟨hr, hnone⟩
    · refine .inl ⟨c :: before, after, ?_, by simp [hs], ?_⟩
      · rw [rpartition, hr]
        cases t with
        | nil => exact absurd rfl ht
        | cons x t => rfl
      · intro p u h
        cases p with
        | nil => simp
        | cons y p =>
          have hp := hlast p u (List.cons.inj h).2
          simpa using hp
    · by_cases hpre : t <+: c :: s
      · obtain ⟨u, hu⟩ := hpre
        refine .inl ⟨[], u, ?_, by simp [hu], ?_⟩
        · have hp : t.isPrefixOf (c :: s) = true := List.isPrefixOf_iff_prefix.mpr ⟨u, hu⟩
          have hd : (c :: s).drop t.length = u := by rw [← hu, List.drop_left]
          simp only [rpartition, hr, hp, if_true, hd]
        · intro p u' h
          cases p with
          | nil => simp
          | cons y p => exact absurd (List.cons.inj h).2 (hnone p u')
      · have hp : ¬t.isPrefixOf (c :: s) = true := fun h =>
          hpre (List.isPrefixOf_iff_prefix.mp h)
        refine .inr ⟨by simp only [rpartition, hr, hp, if_false, Bool.false_eq_true], ?_⟩
        intro p u h
        cases p with
        | nil => exact hpre ⟨u, h.symm⟩
        | cons y p => exact hnone p u (List.cons.inj h).2

/-- The scan of `replace`; the first argument is the number of characters of the
last occurrence that are still to be skipped. -/
def replaceFrom (old new : Str) : Nat → Str → Str
  | _, [] => []
  | 0, c :: s =>
    if old.isPrefixOf (c :: s) then new ++ replaceFrom old new (old.length - 1) s
    else c :: replaceFrom old new 0 s
  | k + 1, _ :: s => replaceFrom old new k s

/-- `s.replace(old, new)` for a non-empty `old`: leftmost, non-overlapping. -/
def replace (old new s : Str) : Str := replaceFrom old new 0 s

theorem replace_cons_unmatched {old : Str} (new : Str) {c : Char} {s : Str}
    (h : ¬old <+: c :: s) : replace old new (c :: s) = c :: replace old new s := by
  have hp : ¬old.isPrefixOf (c :: s) = true := fun hp => h (List.isPrefixOf_iff_prefix.mp hp)
  rw [replace, replaceFrom, if_neg hp, replace]

theorem replaceFrom_skip (old new t s : Str) :
    replaceFrom old new t.length (t ++ s) = replaceFrom old new 0 s := by
  induction t with
  | nil => rfl
  | cons c t ih => exact ih

/-- An occurrence at the front is replaced, and the search goes on behind it. -/
theorem replace_append_self {old : Str} (hne : old ≠ []) (new s : Str) :
    replace old new (old ++ s) = new ++ replace old new s := by
  cases old with
  | nil => exact absurd rfl hne
  | cons c t =>
    have hp : (c :: t).isPrefixOf (c :: (t ++ s)) = true :=
      List.isPrefixOf_iff_prefix.mpr ⟨s, rfl⟩
    rw [List.cons_append, replace, replaceFrom, if_pos hp, List.length_cons, Nat.add_sub_cancel,
      replaceFrom_skip, replace]

/-- Replacing a single character. -/
theorem replace_singleton (c : Char) (new s : Str) :
    replace [c] new s = s.flatMap fun x => if x = c then new else [x] := by
  induction s with
  | nil => rfl
  | cons x s ih =>
    by_cases hx : x = c
    · subst hx
      have h := replace_append_self (List.cons_ne_nil x []) new s
      rw [List.singleton_append] at h
      rw [h, ih, List.flatMap_cons, if_pos rfl]
    · have hp : ¬[c] <+: x :: s := by simpa using Ne.symm hx
      rw [replace_cons_unmatched new hp, ih, List.flatMap_cons, if_neg hx,
        List.singleton_append]

/-- Replacing a character by nothing drops it. -/
theorem replace_nil (c : Char) (s : Str) : replace [c] [] s = s.filter (· ≠ c) := by
  rw [replace_singleton]
  induction s with
  | nil => rfl
  | cons x s ih => by_cases hx : x = c <;> simp [hx, ih]

theorem replace_of_not_infix {old : Str} (new : Str) {s : Str} (h : ¬old <:+: s) :
    replace old new s = s := by
  induction s with
  | nil => rfl
  | cons c s ih =>
    rw [replace_cons_unmatched new fun hp => h hp.isInfix,
      ih fun hi => h (List.infix_cons hi)]

theorem length_replaceFrom_le {old new : Str} (hlen : new.length ≤ old.length) (k : Nat) (s : Str) :
    (replaceFrom old new k s).length ≤ s.length - k := by
  induction s generalizing k with
  | nil => cases k <;> simp [replaceFrom]
  | cons c s ih =>
    cases k with
    | zero =>
      rw [replaceFrom]
      split
      · next hp =>
        have hold := (List.isPrefixOf_iff_prefix.mp hp).length_le
        have hrest := ih (old.length - 1)
        rw [List.length_append, List.length_cons] at *
        omega
      · have hrest := ih 0
        simp only [List.length_cons]
        omega
    | succ k =>
      have hrest := ih k
      rw [replaceFrom, List.length_cons]
      omega

/-- An occurrence that is replaced by something shorter makes the text shorter. -/
theorem length_replace_lt {old new s : Str} (hlen : new.length < old.length) (h : old <:+: s) :
    (replace old new s).length < s.length := by
  induction s with
  | nil =>
    rw [List.infix_nil] at h
    subst h
    exact absurd hlen (Nat.not_lt_zero _)
  | cons c s ih =>
    rw [replace, replaceFrom]
    split
    · next hp =>
      have hold := (List.isPrefixOf_iff_prefix.mp hp).length_le
      have hrest := length_replaceFrom_le hlen.le (old.length - 1) s
      rw [List.length_append, List.length_cons] at *
      omega
    · next hp =>
      have hin : old <:+: s := by
        rcases List.infix_cons_iff.mp h with hpre | hin
        · exact absurd (List.isPrefixOf_iff_prefix.mpr hpre) hp
        · exact hin
      exact Nat.succ_lt_succ (ih hin)

theorem replace_ne_nil (old : Str) {new s : Str} (hnew : new ≠ []) (hs : s ≠ []) :
    replace old new s ≠ [] := by
  cases s with
  | nil => exact absurd rfl hs
  | cons c s =>
    rw [replace, replaceFrom]
    split <;> simp [hnew]

theorem mem_replace {old new s : Str} {c : Char} (h : c ∈ replace old new s) : c ∈ new ∨ c ∈ s := by
  have hfrom : ∀ (s : Str) (k : Nat), c ∈ replaceFrom old new k s → c ∈ new ∨ c ∈ s := by
    intro s
    induction s with
    | nil => intro k h; cases k <;> simp [replaceFrom] at h
    | cons x s ih =>
      intro k h
      cases k with
      | zero =>
        rw [replaceFrom] at h
        split at h
        · rcases List.mem_append.mp h with h | h
          · exact .inl h
          · exact (ih _ h).imp_right (List.mem_cons_of_mem x)
        · rcases List.mem_cons.mp h with rfl | h
          · exact .inr List.mem_cons_self
          · exact (ih _ h).imp_right (List.mem_cons_of_mem x)
      | succ k => exact (ih k h).imp_right (List.mem_cons_of_mem x)
  exact hfrom s 0 h

/-- Nothing is replaced where the first character does not occur. -/
theorem replace_append_of_not_mem {c : Char} {a : Str} (h : c ∉ a) (t new b : Str) :
    replace (c :: t) new (a ++ b) = a ++ replace (c :: t) new b := by
  induction a with
  | nil => rfl
  | cons x a ih =>
    rw [List.mem_cons, not_or] at h
    have hp : ¬c :: t <+: x :: (a ++ b) := fun hp => h.1 (List.cons_prefix_cons.mp hp).1
    rw [List.cons_append, replace_cons_unmatched new hp, ih h.2, List.cons_append]

theorem prefix_append_cons_iff {old : Str} {sep : Char} (h : sep ∉ old) (a b : Str) :
    old <+: a ++ sep :: b ↔ old <+: a := by
  constructor
  · intro hp
    by_cases hlen : old.length ≤ a.length
    · exact List.prefix_of_prefix_length_le hp (List.prefix_append ..) hlen
    · have hsub : a ++ [sep] <+: old := by
        refine List.prefix_of_prefix_length_le ⟨b, ?_⟩ hp ?_
        · simp
        · rw [List.length_append, List.length_singleton]
          omega
      exact absurd (hsub.subset (by simp)) h
  · exact fun hp => hp.trans (List.prefix_append ..)

/-- What does not contain a character is searched for on each side of it. -/
theorem replace_append_cons {old : Str} {sep : Char} (hsep : sep ∉ old) (hne : old ≠ [])
    (new a b : Str) :
    replace old new (a ++ sep :: b) = replace old new a ++ sep :: replace old new b := by
  have hlen := List.length_pos_iff.mpr hne
  have hfrom : ∀ (a : Str) (k : Nat), k ≤ a.length → replaceFrom old new k (a ++ sep :: b) =
      replaceFrom old new k a ++ sep :: replaceFrom old new 0 b := by
    intro a
    induction a with
    | nil =>
      intro k hk
      obtain rfl : k = 0 := Nat.le_zero.mp hk
      have hp : ¬old <+: [] ++ sep :: b := by
        rw [prefix_append_cons_iff hsep, List.prefix_nil]
        exact hne
      exact replace_cons_unmatched new hp
    | cons x a ih =>
      intro k hk
      cases k with
      | succ k => exact ih k (Nat.le_of_succ_le_succ hk)
      | zero =>
        rw [List.cons_append, replaceFrom, replaceFrom]
        have hiff : old.isPrefixOf (x :: (a ++ sep :: b)) = old.isPrefixOf (x :: a) := by
          rw [Bool.eq_iff_iff, List.isPrefixOf_iff_prefix, List.isPrefixOf_iff_prefix]
          exact prefix_append_cons_iff hsep (x :: a) b
        rw [hiff]
        split
        · rename_i hp
          have hle := (List.isPrefixOf_iff_prefix.mp hp).length_le
          rw [List.length_cons] at hle
          rw [ih _ (by omega), List.append_assoc]
        · rw [ih 0 (Nat.zero_le _), List.cons_append]
  exact hfrom a 0 (Nat.zero_le _)

example : replace "_0_".toList "-".toList "a_0_0_b_0_".toList = "a-0_b-".toList := by decide

/-- `c.isspace()`. -/
def whitespace (c : Char) : Bool :=
  (9 ≤ c.toNat ∧ c.toNat ≤ 13) ∨ (28 ≤ c.toNat ∧ c.toNat ≤ 32) ∨
    (0x2000 ≤ c.toNat ∧ c.toNat ≤ 0x200A) ∨
    c.toNat ∈ [0x85, 0xA0, 0x1680, 0x2028, 0x2029, 0x202F, 0x205F, 0x3000]

/-- `s.split(None, 1)` if that has two parts. -/
def splitWord (s : Str) : Option (Str × Str) :=
  let s := s.dropWhile whitespace
  let rest := (s.dropWhile fun c => !whitespace c).dropWhile whitespace
  if rest = [] then none else some (s.takeWhile fun c => !whitespace c, rest)

example : splitWord " a  b c ".toList = some ("a".toList, "b c ".toList) ∧
    splitWord "a ".toList = none := by decide

/-- `t in s`. -/
def contains (t : Str) : Str → Bool
  | [] => t.isEmpty
  | c :: s => t.isPrefixOf (c :: s) || contains t s

/-- Hexadecimal value of a digit. -/
def hexVal (c : Char) : Option Nat :=
  if '0' ≤ c ∧ c ≤ '9' then some (c.toNat - 48)
  else if 'a' ≤ c ∧ c ≤ 'f' then some (c.toNat - 87)
  else if 'A' ≤ c ∧ c ≤ 'F' then some (c.toNat - 55)
  else none

end LocalStack.Text
