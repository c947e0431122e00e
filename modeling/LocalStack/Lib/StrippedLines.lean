import LocalStack.Lib.Fields
import LocalStack.Lib.IntText

/-! The lines of a text without the white space around it, each without the white space around
itself: only blank lines at the two ends are gone. -/

namespace LocalStack.StrippedLines
open LocalStack.Fields LocalStack.IntText LocalStack.Text

/-! ## Stripping -/

variable {s w : Str}

theorem rdropWhile_append {p : Char → Bool} (s : Str) (hw : ∀ c ∈ w, p c = true) :
    (s ++ w).rdropWhile p = s.rdropWhile p := by
  rw [List.rdropWhile, List.reverse_append, List.dropWhile_append_of_pos, List.rdropWhile]
  exact fun c hc => hw c (List.mem_reverse.mp hc)

theorem stripSpace_append_left (hw : ∀ c ∈ w, whitespace c = true) (s : Str) :
    stripSpace (w ++ s) = stripSpace s := by
  rw [stripSpace, List.dropWhile_append_of_pos hw, stripSpace]

theorem stripSpace_append_right (s : Str) (hw : ∀ c ∈ w, whitespace c = true) :
    stripSpace (s ++ w) = stripSpace s := by
  rw [stripSpace, stripSpace, List.dropWhile_append]
  split
  · rename_i hs
    have hwnil : w.dropWhile whitespace = [] := List.dropWhile_eq_nil_iff.mpr hw
    rw [List.isEmpty_iff.mp hs, hwnil]
  · exact rdropWhile_append _ hw

theorem stripSpace_of_space (hw : ∀ c ∈ w, whitespace c = true) : stripSpace w = [] := by
  rw [stripSpace, List.dropWhile_eq_nil_iff.mpr hw]
  rfl

/-- A text that neither begins nor ends with white space stays as it is. -/
theorem stripSpace_of_ends (hhead : ∀ c ∈ s.head?, whitespace c = false)
    (hlast : ∀ c ∈ s.getLast?, whitespace c = false) : stripSpace s = s := by
  by_cases hs : s = []
  · rw [hs]
    rfl
  · simpa using @stripSpace_append [] s [] (by simp) (by simp) hhead hlast hs

theorem stripSpace_parts (s : Str) : ∃ lead trail, s = lead ++ (stripSpace s ++ trail) ∧
    (∀ c ∈ lead, whitespace c = true) ∧ ∀ c ∈ trail, whitespace c = true := by
  refine ⟨s.takeWhile whitespace, (s.dropWhile whitespace).rtakeWhile whitespace, ?_,
    fun c hc => List.mem_takeWhile_imp hc, fun c hc => List.mem_rtakeWhile_imp hc⟩
  rw [stripSpace, List.rdropWhile_append_rtakeWhile, List.takeWhile_append_dropWhile]

theorem mem_stripSpace {c : Char} (hc : whitespace c = false) (s : Str) :
    c ∈ stripSpace s ↔ c ∈ s := by
  obtain ⟨lead, trail, hs, hlead, htrail⟩ := stripSpace_parts s
  have hout : c ∉ lead ∧ c ∉ trail :=
    ⟨fun h => by simp [hlead c h] at hc, fun h => by simp [htrail c h] at hc⟩
  conv_rhs => rw [hs]
  simp [hout.1, hout.2]

/-- A stripped text begins with the first character that is no white space. -/
theorem stripSpace_cons {c : Char} (hc : whitespace c = false) (s : Str) :
    ∃ t, stripSpace (c :: s) = c :: t := by
  have hdrop : (c :: s).dropWhile whitespace = c :: s := List.dropWhile_cons_of_neg (by simp [hc])
  obtain ⟨trail, htrail⟩ := List.rdropWhile_prefix whitespace (c :: s)
  rw [stripSpace, hdrop]
  cases h : (c :: s).rdropWhile whitespace with
  | nil =>
    have hall := List.rdropWhile_eq_nil_iff.mp h c (List.mem_cons_self ..)
    simp [hc] at hall
  | cons d t =>
    rw [h, List.cons_append] at htrail
    exact ⟨t, by rw [(List.cons.inj htrail).1]⟩

theorem head?_stripSpace (s : Str) : ∀ c ∈ (stripSpace s).head?, whitespace c = false := by
  intro c hc
  have hpre := List.rdropWhile_prefix whitespace (s.dropWhile whitespace)
  obtain ⟨rest, hrest⟩ := List.head?_eq_some_iff.mp hc
  obtain ⟨t, ht⟩ := hpre
  rw [← stripSpace, hrest] at ht
  have hhead : (s.dropWhile whitespace).head? = some c := by rw [← ht]; rfl
  have hnot := List.head?_dropWhile_not whitespace s
  rw [hhead] at hnot
  exact hnot

/-- What stands before a character begins like the text. -/
theorem stripSpace_partition {c x : Char} (hx : whitespace x = false) (hcx : c ≠ x) {t : Str}
    (h : stripSpace s = c :: t) (hmem : x ∈ s) : ∃ t', stripSpace (partition x s).1 = c :: t' := by
  have hc : whitespace c = false := head?_stripSpace s c (by simp [h])
  obtain ⟨lead, trail, hs, hlead, -⟩ := stripSpace_parts s
  rcases partition_cases x s with ⟨hnot, -⟩ | ⟨u, v, -, huv, hpart⟩
  · exact absurd hmem hnot
  rw [hpart]
  rw [h, huv] at hs
  rcases List.append_eq_append_iff.mp hs with ⟨w, rfl, hw⟩ | ⟨w, rfl, hw⟩
  · cases w with
    | nil => exact absurd (List.cons.inj hw).1.symm hcx
    | cons y w =>
      obtain ⟨rfl, -⟩ := List.cons.inj hw
      simp [hlead x (by simp)] at hx
  · cases w with
    | nil => exact absurd (List.cons.inj hw).1 hcx
    | cons y w =>
      obtain ⟨rfl, -⟩ := List.cons.inj hw
      rw [stripSpace_append_left hlead]
      exact stripSpace_cons hc w

/-! ## Lines -/

/-- Where two texts meet, the last field of the one and the first field of the other become one. -/
theorem splitOn_append {sep : Char} (s t : Str) : ∃ init x y tail,
    s.splitOn sep = init ++ [x] ∧ t.splitOn sep = y :: tail ∧
      (s ++ t).splitOn sep = init ++ (x ++ y) :: tail := by
  induction s with
  | nil =>
    obtain ⟨y, tail, ht⟩ := List.exists_cons_of_ne_nil (@splitOn_ne_nil sep t)
    exact ⟨[], [], y, tail, rfl, ht, ht⟩
  | cons c s ih =>
    obtain ⟨init, x, y, tail, hs, ht, hst⟩ := ih
    by_cases hc : c = sep
    · refine ⟨[] :: init, x, y, tail, ?_, ht, ?_⟩
      · rw [hc, splitOn_sep_cons, hs, List.cons_append]
      · rw [hc, List.cons_append, splitOn_sep_cons, hst, List.cons_append]
    · rw [List.cons_append, splitOn_cons hc, splitOn_cons hc, hs, hst]
      cases init with
      | nil => exact ⟨[], c :: x, y, tail, rfl, ht, rfl⟩
      | cons f init => exact ⟨(c :: f) :: init, x, y, tail, rfl, ht, rfl⟩

theorem map_stripSpace_splitOn (hw : ∀ c ∈ w, whitespace c = true) {init : List Str}
    (h : ∀ f ∈ init, f ∈ w.splitOn '\n') :
    init.map stripSpace = List.replicate init.length [] := by
  refine List.eq_replicate_iff.mpr ⟨List.length_map _, fun f hf => ?_⟩
  obtain ⟨l, hl, rfl⟩ := List.mem_map.mp hf
  refine stripSpace_of_space fun c hc => hw c ?_
  have hmem : c ∈ join '\n' (w.splitOn '\n') := mem_join_of_mem hc (h l hl)
  rwa [join_splitOn] at hmem

/-- Stripping a text takes blank lines from its ends. -/
theorem strip_lines (s : Str) : ∃ m n, (s.splitOn '\n').map stripSpace =
    List.replicate m [] ++
      (((stripSpace s).splitOn '\n').map stripSpace ++ List.replicate n []) := by
  obtain ⟨lead, trail, hs, hlead, htrail⟩ := stripSpace_parts s
  obtain ⟨init, x, y, tail, hl, hct, hlct⟩ := @splitOn_append '\n' lead
    (stripSpace s ++ trail)
  obtain ⟨init', x', y', tail', hc, ht, hct'⟩ := @splitOn_append '\n' (stripSpace s) trail
  have hinit := map_stripSpace_splitOn hlead fun f (hf : f ∈ init) =>
    hl ▸ List.mem_append_left _ hf
  have htail := map_stripSpace_splitOn htrail fun f (hf : f ∈ tail') =>
    ht ▸ List.mem_cons_of_mem _ hf
  have hx : ∀ c ∈ x, whitespace c = true := fun c hc =>
    hlead c (by rw [← @join_splitOn '\n' lead]; exact mem_join_of_mem hc (by simp [hl]))
  have hy' : ∀ c ∈ y', whitespace c = true := fun c hc =>
    htrail c (by rw [← @join_splitOn '\n' trail]; exact mem_join_of_mem hc (by simp [ht]))
  refine ⟨init.length, tail'.length, ?_⟩
  conv_lhs => rw [hs, hlct]
  rw [hc, List.map_append, List.map_cons, hinit, stripSpace_append_left hx, ← List.map_cons, ← hct,
    hct']
  simp [htail, stripSpace_append_right x' hy']

/-- Up to white space a line of the stripped text is a line of the text. -/
theorem exists_line {l : Str} (h : l ∈ (stripSpace s).splitOn '\n') :
    ∃ l' ∈ s.splitOn '\n', stripSpace l' = stripSpace l := by
  obtain ⟨m, n, hmn⟩ := strip_lines s
  have hl : stripSpace l ∈ (s.splitOn '\n').map stripSpace := by
    rw [hmn]
    exact List.mem_append_right _ (List.mem_append_left _ (List.mem_map_of_mem h))
  exact List.mem_map.mp hl

/-- What the stripped lines give is the same where blank lines give nothing. -/
theorem filterMap_stripped {β : Type*} {f : Str → Option β} (hf : f [] = none) (s : Str) :
    ((stripSpace s).splitOn '\n').filterMap (fun l => f (stripSpace l)) =
      (s.splitOn '\n').filterMap fun l => f (stripSpace l) := by
  obtain ⟨m, n, hmn⟩ := strip_lines s
  have hmap : ∀ ls : List Str,
      ls.filterMap (fun l => f (stripSpace l)) = (ls.map stripSpace).filterMap f := by
    intro ls
    rw [List.filterMap_map]
    rfl
  have hblank : ∀ k, (List.replicate k ([] : Str)).filterMap f = [] := by
    intro k
    rw [List.filterMap_replicate, hf]
  rw [hmap, hmap, hmn, List.filterMap_append, List.filterMap_append, hblank, hblank,
    List.nil_append, List.append_nil]

/-- A stripped text that is not empty begins with a line that is not blank. -/
theorem first_line (h : stripSpace s ≠ []) : ∃ l ls, (stripSpace s).splitOn '\n' = l :: ls ∧
    stripSpace l ≠ [] := by
  obtain ⟨c, t, hct⟩ := List.exists_cons_of_ne_nil h
  have hc : whitespace c = false := head?_stripSpace s c (by simp [hct])
  have hne : c ≠ '\n' := by
    rintro rfl
    exact absurd hc (by decide)
  obtain ⟨f, fs, hf⟩ := List.exists_cons_of_ne_nil (@splitOn_ne_nil '\n' t)
  refine ⟨c :: f, fs, by rw [hct, splitOn_cons hne, hf]; rfl, fun hblank => ?_⟩
  rw [stripSpace, List.dropWhile_cons_of_neg (by simp [hc])] at hblank
  have := (List.rdropWhile_eq_nil_iff.mp hblank) c (List.mem_cons_self ..)
  simp [hc] at this

/-- The first lines of the stripped text are those behind the blank lines in front. -/
theorem any_take_stripped {p : Str → Bool} (hp : p [] = false) (k : Nat) (s : Str) :
    (((stripSpace s).splitOn '\n').take k).any (fun l => p (stripSpace l)) =
      (((s.splitOn '\n').dropWhile fun l => stripSpace l = []).take k).any
        fun l => p (stripSpace l) := by
  have hmap : ∀ ls : List Str,
      ls.any (fun l => p (stripSpace l)) = (ls.map stripSpace).any p := by
    intro ls
    rw [List.any_map]
    rfl
  have hblank : ∀ j, (List.replicate j ([] : Str)).any p = false := by
    intro j
    simp [List.any_replicate, hp]
  obtain ⟨m, n, hmn⟩ := strip_lines s
  have hdrop : ((s.splitOn '\n').dropWhile fun l => stripSpace l = []).map stripSpace =
      (((stripSpace s).splitOn '\n').map stripSpace ++ List.replicate n []).dropWhile (· = []) := by
    have hfront : ∀ l ∈ List.replicate m ([] : Str), decide (l = []) = true := by simp
    rw [← List.dropWhile_append_of_pos hfront, ← hmn, List.dropWhile_map]
    rfl
  rw [hmap, hmap, List.map_take, List.map_take, hdrop]
  by_cases hs : stripSpace s = []
  · have hline : (([] : Str).splitOn '\n').map stripSpace = List.replicate 1 [] := rfl
    have hnil : (List.replicate 1 ([] : Str) ++ List.replicate n []).dropWhile (· = []) = [] :=
      List.dropWhile_eq_nil_iff.mpr (by simp)
    rw [hs, hline, hnil, List.take_replicate, hblank, List.take_nil, List.any_nil]
  · obtain ⟨l, ls, hls, hl⟩ := first_line hs
    rw [hls, List.map_cons, List.cons_append, List.dropWhile_cons_of_neg (by simpa using hl),
      ← List.cons_append, List.take_append, List.any_append, List.take_replicate, hblank,
      Bool.or_false]

/-- Lines are found again where the first begins and the last ends with no white space. -/
theorem stripped_join {ls init : List Str} {first last : Str} (n : Nat)
    (hfirst : ls.head? = some first) (hlast : ls = init ++ [last]) (hone : ∀ l ∈ ls, '\n' ∉ l)
    (hhead : ∃ c, first.head? = some c ∧ whitespace c = false)
    (hend : ∃ c, last.getLast? = some c ∧ whitespace c = false) :
    (stripSpace (join '\n' ls ++ List.replicate n '\n')).splitOn '\n' = ls := by
  have hne : ls ≠ [] := by simp [hlast]
  obtain ⟨c, hc, hcspace⟩ := hhead
  obtain ⟨d, hd, hdspace⟩ := hend
  have hjoinhead : (join '\n' ls).head? = some c := by
    obtain ⟨rest, rfl⟩ := List.head?_eq_some_iff.mp hfirst
    obtain ⟨t, rfl⟩ := List.head?_eq_some_iff.mp hc
    by_cases hrest : rest = []
    · rw [hrest, join_singleton]
      rfl
    · rw [join_cons _ hrest]
      rfl
  have hjoinlast : (join '\n' ls).getLast? = some d := by
    by_cases hinit : init = []
    · rw [hlast, hinit, List.nil_append, join_singleton, hd]
    · rw [hlast, join_append hinit (by simp), join_singleton]
      simp [List.getLast?_cons, hd]
  rw [stripSpace_append_right _ (by simp [whitespace]), stripSpace_of_ends, splitOn_join hne hone]
  · simpa [hjoinhead] using hcspace
  · simpa [hjoinlast] using hdspace

end LocalStack.StrippedLines
