import LocalStack.Lib.Lists
import LocalStack.Lib.Text

/-! Texts cut at a separator, and put together again. -/

namespace LocalStack.Fields
open LocalStack.Text

/-- Texts with a separator between them. -/
def join (sep : Char) (fields : List Str) : Str := [sep].intercalate fields

section
variable {sep : Char}

@[simp] theorem join_singleton (f : Str) : join sep [f] = f := List.intercalate_singleton

theorem join_cons (f : Str) {fs : List Str} (h : fs ≠ []) :
    join sep (f :: fs) = f ++ sep :: join sep fs := by
  rw [join, List.intercalate_cons_of_ne_nil h, List.append_assoc]
  rfl

theorem join_append {fs gs : List Str} (hf : fs ≠ []) (hg : gs ≠ []) :
    join sep (fs ++ gs) = join sep fs ++ sep :: join sep gs := by
  induction fs with
  | nil => exact absurd rfl hf
  | cons f fs ih =>
    cases fs with
    | nil => rw [List.singleton_append, join_cons f hg, join_singleton]
    | cons f' fs =>
      rw [List.cons_append, join_cons f (by simp), ih (by simp), join_cons f (by simp),
        List.append_assoc]
      rfl

/-- More text in front of the first field. -/
theorem join_cons_append (s f : Str) (fs : List Str) :
    join sep ((s ++ f) :: fs) = s ++ join sep (f :: fs) := by
  cases fs with
  | nil => rw [join_singleton, join_singleton]
  | cons f' fs =>
    have hne : f' :: fs ≠ [] := List.cons_ne_nil f' fs
    rw [join_cons _ hne, join_cons _ hne, List.append_assoc]

theorem join_cons_cons (c : Char) (f : Str) (fs : List Str) :
    join sep ((c :: f) :: fs) = c :: join sep (f :: fs) := join_cons_append [c] f fs

theorem not_mem_join {c : Char} (hc : c ≠ sep) {fs : List Str} (h : ∀ f ∈ fs, c ∉ f) :
    c ∉ join sep fs := by
  induction fs with
  | nil => exact List.not_mem_nil
  | cons f fs ih =>
    rw [List.forall_mem_cons] at h
    by_cases hfs : fs = []
    · rw [hfs, join_singleton]
      exact h.1
    · rw [join_cons f hfs, List.mem_append, List.mem_cons, not_or, not_or]
      exact ⟨h.1, hc, ih h.2⟩

theorem mem_join_of_mem {c : Char} {f : Str} {fs : List Str} (hc : c ∈ f) (hf : f ∈ fs) :
    c ∈ join sep fs := by
  induction fs with
  | nil => cases hf
  | cons g fs ih =>
    by_cases hfs : fs = []
    · subst hfs
      rw [join_singleton, ← List.mem_singleton.mp hf]
      exact hc
    · rw [join_cons g hfs, List.mem_append, List.mem_cons]
      rcases List.mem_cons.mp hf with rfl | hf
      · exact .inl hc
      · exact .inr (.inr (ih hf))

/-- Fields with text in them do not begin or end with a separator. -/
theorem head?_join_ne {fs : List Str} (h : ∀ f ∈ fs, f ≠ [] ∧ sep ∉ f) :
    ∀ c ∈ (join sep fs).head?, c ≠ sep := by
  intro c hc
  cases fs with
  | nil => cases hc
  | cons f fs =>
    obtain ⟨hne, hnot⟩ := h f List.mem_cons_self
    obtain ⟨x, f, rfl⟩ := List.exists_cons_of_ne_nil hne
    rw [join_cons_cons, List.head?_cons, Option.mem_some_iff] at hc
    subst hc
    rintro rfl
    exact hnot List.mem_cons_self

theorem getLast?_join_ne {fs : List Str} (h : ∀ f ∈ fs, f ≠ [] ∧ sep ∉ f) :
    ∀ c ∈ (join sep fs).getLast?, c ≠ sep := by
  induction fs with
  | nil => simp [join]
  | cons f fs ih =>
    rw [List.forall_mem_cons] at h
    cases fs with
    | nil =>
      rw [join_singleton]
      rintro c hc rfl
      exact h.1.2 (List.mem_of_getLast? hc)
    | cons g fs =>
      obtain ⟨x, g, rfl⟩ := List.exists_cons_of_ne_nil (h.2 g List.mem_cons_self).1
      rw [join_cons f (List.cons_ne_nil _ _), join_cons_cons, List.getLast?_append_of_ne_nil _
        (List.cons_ne_nil _ _), List.getLast?_cons_cons, ← join_cons_cons]
      exact ih h.2

theorem join_splitOn (s : Str) : join sep (s.splitOn sep) = s := List.intercalate_splitOn sep

/-- Fields without separators can be told from their text. -/
theorem splitOn_join {fs : List Str} (hne : fs ≠ []) (h : ∀ f ∈ fs, sep ∉ f) :
    (join sep fs).splitOn sep = fs := List.splitOn_intercalate sep h hne

theorem splitOn_of_not_mem {s : Str} (h : sep ∉ s) : s.splitOn sep = [s] := by
  have := @splitOn_join sep [s] (List.cons_ne_nil _ _) (List.forall_mem_singleton.mpr h)
  rwa [join_singleton] at this

/-- Texts are the same if their fields are. -/
theorem splitOn_inj {s t : Str} : s.splitOn sep = t.splitOn sep ↔ s = t := by
  refine ⟨fun h => ?_, fun h => by rw [h]⟩
  rw [← @join_splitOn sep s, h, join_splitOn]

theorem splitOn_sep_cons (s : Str) : (sep :: s).splitOn sep = [] :: s.splitOn sep := by
  rw [List.splitOn_eq_splitOnP, List.splitOn_eq_splitOnP, List.splitOnP_cons_eq_if_modifyHead,
    if_pos (beq_self_eq_true sep)]

theorem splitOn_cons {c : Char} (hc : c ≠ sep) (s : Str) :
    (c :: s).splitOn sep = (s.splitOn sep).modifyHead (c :: ·) := by
  rw [List.splitOn_eq_splitOnP, List.splitOn_eq_splitOnP, List.splitOnP_cons_eq_if_modifyHead,
    if_neg (by simpa using hc)]

theorem splitOn_ne_nil (s : Str) : s.splitOn sep ≠ [] := by
  rw [List.splitOn_eq_splitOnP]
  exact List.splitOnP_ne_nil _ s

theorem not_mem_splitOn {c : Char} {s : Str} (hc : c ∉ s) : ∀ f ∈ s.splitOn sep, c ∉ f := by
  intro f hf hcf
  have hmem : c ∈ join sep (s.splitOn sep) := mem_join_of_mem hcf hf
  rw [join_splitOn] at hmem
  exact hc hmem

/-- The first field ends at the first separator. -/
theorem head?_splitOn (s : Str) :
    (s.splitOn sep).head? = some (s.takeWhile fun c => c ≠ sep) := by
  induction s with
  | nil => rfl
  | cons c s ih =>
    by_cases hc : c = sep
    · rw [hc, splitOn_sep_cons, List.takeWhile_cons_of_neg (by simp)]
      rfl
    · rw [splitOn_cons hc, List.takeWhile_cons_of_pos (by simpa using hc), List.head?_modifyHead,
        ih]
      rfl

/-- What a text without separators begins is the first field. -/
theorem prefix_join_cons {t s : Str} (ht : sep ∉ t) (fs : List Str) :
    t <+: join sep (s :: fs) ↔ t <+: s := by
  by_cases hfs : fs = []
  · rw [hfs, join_singleton]
  rw [join_cons s hfs]
  constructor
  · intro h
    rcases Nat.le_total t.length s.length with hle | hle
    · exact List.prefix_of_prefix_length_le h (List.prefix_append _ _) hle
    · obtain ⟨x, rfl⟩ := List.prefix_of_prefix_length_le (List.prefix_append _ _) h hle
      rw [List.prefix_append_right_inj] at h
      cases x with
      | nil => exact ⟨[], by simp⟩
      | cons c x =>
        rw [(List.cons_prefix_cons.mp h).1] at ht
        exact absurd (by simp) ht
  · exact fun h => h.trans (List.prefix_append _ _)

/-- A text is cut at its first separator in one way only. -/
theorem append_sep_inj {a b s t : Str} (ha : sep ∉ a) (hb : sep ∉ b)
    (h : a ++ sep :: s = b ++ sep :: t) : a = b ∧ s = t := by
  have hp := congrArg (partition sep) h
  rw [partition_append ha, partition_append hb] at hp
  exact ⟨(Prod.mk.inj hp).1, (Prod.mk.inj (Prod.mk.inj hp).2).2⟩

theorem count_join {fs : List Str} (hne : fs ≠ []) (h : ∀ f ∈ fs, sep ∉ f) :
    (join sep fs).count sep + 1 = fs.length := by
  induction fs with
  | nil => exact absurd rfl hne
  | cons f fs ih =>
    rw [List.forall_mem_cons] at h
    by_cases hfs : fs = []
    · subst hfs
      rw [join_singleton, List.count_eq_zero_of_not_mem h.1]
      rfl
    · rw [join_cons f hfs, List.count_append, List.count_eq_zero_of_not_mem h.1,
        List.count_cons_self, List.length_cons, ← ih hfs h.2]
      omega

end

/-! ## Separators of several characters -/

/-- The scan of `split`; the second argument is the number of characters of the last
separator that are still to be skipped. -/
def splitFrom (sep : Str) : Nat → Str → List Str
  | _, [] => [[]]
  | 0, c :: s =>
    if sep.isPrefixOf (c :: s) then [] :: splitFrom sep (sep.length - 1) s
    else (splitFrom sep 0 s).modifyHead (c :: ·)
  | k + 1, _ :: s => splitFrom sep k s

/-- `s.split(sep)` for a separator that is not empty. -/
def split (sep s : Str) : List Str := splitFrom sep 0 s

theorem split_ne_nil (sep s : Str) : split sep s ≠ [] := by
  have hfrom : ∀ (s : Str) (k : Nat), splitFrom sep k s ≠ [] := by
    intro s
    induction s with
    | nil => intro k; cases k <;> simp [splitFrom]
    | cons c s ih =>
      intro k
      cases k with
      | zero =>
        rw [splitFrom]
        split
        · exact List.cons_ne_nil _ _
        · simpa using ih 0
      | succ k => exact ih k
  exact hfrom s 0

/-- A separator that begins with a character of its own is found where it is. -/
theorem split_append {x : Char} {t : Str} (hx : x ∉ t) (a b : Str) :
    split (x :: t) (a ++ (x :: t ++ b)) = split (x :: t) a ++ split (x :: t) b := by
  have hskip : ∀ (u b : Str), splitFrom (x :: t) u.length (u ++ b) = splitFrom (x :: t) 0 b := by
    intro u b
    induction u with
    | nil => rfl
    | cons c u ih => exact ih
  have hprefix : ∀ (a : Str), a ≠ [] →
      ((x :: t) <+: a ++ (x :: t ++ b) ↔ (x :: t) <+: a) := by
    intro a ha
    constructor
    · intro hp
      rcases Nat.le_total (x :: t).length a.length with hlen | hlen
      · exact List.prefix_of_prefix_length_le hp (List.prefix_append _ _) hlen
      · -- the next separator would begin inside this one
        obtain ⟨u, hu⟩ := List.prefix_of_prefix_length_le (List.prefix_append _ _) hp hlen
        cases u with
        | nil => exact ⟨[], by simpa using hu.symm⟩
        | cons y u =>
          obtain ⟨c, a, rfl⟩ := List.exists_cons_of_ne_nil ha
          have hp' : c :: a ++ y :: u <+: c :: a ++ (x :: t ++ b) := by rwa [hu]
          rw [List.prefix_append_right_inj, List.cons_append, List.cons_prefix_cons] at hp'
          obtain ⟨-, htail⟩ := List.cons.inj hu
          exact absurd (by rw [← htail, hp'.1]; simp) hx
    · exact fun hp => hp.trans (List.prefix_append _ _)
  have hfrom : ∀ (a : Str) (k : Nat), k ≤ a.length →
      splitFrom (x :: t) k (a ++ (x :: t ++ b)) =
        splitFrom (x :: t) k a ++ splitFrom (x :: t) 0 b := by
    intro a
    induction a with
    | nil =>
      intro k hk
      obtain rfl : k = 0 := Nat.le_zero.mp hk
      have hp : (x :: t).isPrefixOf (x :: (t ++ b)) = true :=
        List.isPrefixOf_iff_prefix.mpr ⟨b, rfl⟩
      rw [show splitFrom (x :: t) 0 [] = [[]] from rfl, List.nil_append, List.cons_append,
        splitFrom, if_pos hp, List.length_cons, Nat.add_sub_cancel, hskip]
      rfl
    | cons c a ih =>
      intro k hk
      cases k with
      | succ k => exact ih k (Nat.le_of_succ_le_succ hk)
      | zero =>
        have hiff : (x :: t).isPrefixOf (c :: (a ++ (x :: t ++ b))) =
            (x :: t).isPrefixOf (c :: a) := by
          rw [Bool.eq_iff_iff, List.isPrefixOf_iff_prefix, List.isPrefixOf_iff_prefix]
          exact hprefix (c :: a) (List.cons_ne_nil c a)
        rw [List.cons_append, splitFrom, splitFrom, hiff]
        split
        · next hp =>
          have hle := (List.isPrefixOf_iff_prefix.mp hp).length_le
          rw [List.length_cons, List.length_cons] at hle
          rw [ih _ (by rw [List.length_cons]; omega), List.cons_append]
        · rw [ih 0 (Nat.zero_le _)]
          cases hsplit : splitFrom (x :: t) 0 a with
          | nil => exact absurd hsplit (split_ne_nil (x :: t) a)
          | cons u us => rfl
  exact hfrom a 0 (Nat.zero_le _)

theorem split_of_not_mem {x : Char} {s : Str} (h : x ∉ s) (t : Str) : split (x :: t) s = [s] := by
  induction s with
  | nil => rfl
  | cons c s ih =>
    rw [List.mem_cons, not_or] at h
    have hp : ¬(x :: t).isPrefixOf (c :: s) = true := fun hp =>
      h.1 (List.cons_prefix_cons.mp (List.isPrefixOf_iff_prefix.mp hp)).1
    have ih := ih h.2
    rw [split] at ih
    rw [split, splitFrom, if_neg hp, ih]
    rfl

example : split "%s".toList "a%sb%%sc".toList = ["a".toList, "b%".toList, "c".toList] := by decide

end LocalStack.Fields
