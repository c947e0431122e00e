import Mathlib.Data.List.Basic
import Mathlib.Data.Set.Function

/-! `PaginatedList` of `utils/collections.py`. A token names the item that begins the
next page, so the pages cover the list exactly when no such item has an equal one
before it. -/

namespace LocalStack.Utils.Pagination

variable {α τ : Type*}

/-! ## The pages -/

def DEFAULT_PAGE_SIZE : Nat := 50

/-- The list itself, or what the filter leaves of it. -/
def filtered (self : List α) (filter_function : Option (α → Bool)) : List α :=
  match filter_function with
  | some filter_function => self.filter filter_function
  | none => self

def get_page [BEq α] [DecidableEq τ] (self : List α) (token_generator : α → τ)
    (next_token : Option τ) (page_size : Option Nat) (filter_function : Option (α → Bool)) :
    List α × Option τ :=
  let result_list := filtered self filter_function
  let page_size := page_size.getD DEFAULT_PAGE_SIZE
  if result_list.length ≤ page_size ∧ next_token = none then (result_list, none)
  else
    let start_idx :=
      match result_list.find? fun item => some (token_generator item) = next_token with
      | some start_item => result_list.idxOf start_item
      | none => 0
    ((result_list.drop start_idx).take page_size,
      if h : start_idx + page_size < result_list.length then
        some (token_generator result_list[start_idx + page_size])
      else none)

/-- The pages that at most `calls` calls give, each with the token that the one before
has returned; `none` where the last of them still returns a token. -/
def follow (get : Option τ → List α × Option τ) : Nat → Option τ → Option (List (List α))
  | 0, _ => none
  | calls + 1, next_token =>
    match get next_token with
    | (page, none) => some [page]
    | (page, some next_token) => (follow get calls (some next_token)).map (page :: ·)

/-- Following the tokens ends after `max(1, ceil(n / page_size))` calls at most, with
pages that are small enough and together are the filtered list. -/
def Covered [BEq α] [DecidableEq τ] (self : List α) (token_generator : α → τ)
    (page_size : Option Nat) (filter_function : Option (α → Bool)) : Prop :=
  let result_list := filtered self filter_function
  let size := page_size.getD DEFAULT_PAGE_SIZE
  ∃ pages, follow (fun token => get_page self token_generator token page_size filter_function)
      (max 1 ((result_list.length + size - 1) / size)) none = some pages ∧
    (∀ page ∈ pages, page.length ≤ size) ∧ pages.flatten = result_list

/-- No item that begins a page has an equal item before it. -/
def PageStartsFirst [BEq α] (result_list : List α) (size : Nat) : Prop :=
  ∀ k, ∀ h : k * size < result_list.length, ∀ i, ∀ hi : i < k * size,
    (result_list[i] == result_list[k * size]) = false

/-! ## Pages by index -/

section
variable (L : List α) (token : α → τ) (size : Nat)

/-- The page that begins at an index. -/
def pageAt (idx : Nat) : List α × Option τ :=
  ((L.drop idx).take size, if h : idx + size < L.length then some (token L[idx + size]) else none)

/-- The pages from an index on, where each token is read as the first index of the item. -/
def pagesFrom [BEq α] : Nat → Nat → Option (List (List α))
  | 0, _ => none
  | calls + 1, idx =>
    if h : idx + size < L.length then
      (pagesFrom calls (L.idxOf L[idx + size])).map ((L.drop idx).take size :: ·)
    else some [(L.drop idx).take size]

end

variable {self : List α} {token_generator : α → τ} {page_size : Option Nat}
  {filter_function : Option (α → Bool)} {L : List α} {size calls idx : Nat}

theorem mem_filtered {a : α} (h : a ∈ filtered self filter_function) : a ∈ self := by
  unfold filtered at h
  split at h
  · exact (List.mem_filter.mp h).1
  · exact h

theorem get_page_none [BEq α] [DecidableEq τ] :
    get_page self token_generator none page_size filter_function =
      pageAt (filtered self filter_function) token_generator
        (page_size.getD DEFAULT_PAGE_SIZE) 0 := by
  have hfind : (filtered self filter_function).find?
      (fun item => decide (some (token_generator item) = none)) = none := by simp
  simp only [get_page, pageAt, hfind, and_true, Nat.zero_add, List.drop_zero]
  split
  · rename_i h
    rw [List.take_of_length_le h, dif_neg (by omega)]
  · rfl

/-- A token leads to the first item that equals the one it was made of. -/
theorem get_page_some [BEq α] [DecidableEq τ]
    (hinj : Set.InjOn token_generator {a | a ∈ self}) {a : α}
    (ha : a ∈ filtered self filter_function) :
    get_page self token_generator (some (token_generator a)) page_size filter_function =
      pageAt (filtered self filter_function) token_generator (page_size.getD DEFAULT_PAGE_SIZE)
        ((filtered self filter_function).idxOf a) := by
  have hfind : (filtered self filter_function).find?
      (fun item => decide (some (token_generator item) = some (token_generator a))) = some a := by
    cases h : (filtered self filter_function).find?
        (fun item => decide (some (token_generator item) = some (token_generator a))) with
    | none => simpa using List.find?_eq_none.mp h a ha
    | some b =>
      have hb := List.find?_some h
      simp only [Option.some.injEq, decide_eq_true_eq] at hb
      rw [hinj (mem_filtered (List.mem_of_find?_eq_some h)) (mem_filtered ha) hb]
  simp only [get_page, pageAt, hfind, reduceCtorEq, and_false, if_false]

theorem follow_pageAt [BEq α] (get : Option τ → List α × Option τ)
    (hget : ∀ a ∈ L, get (some (token_generator a)) =
      pageAt L token_generator size (L.idxOf a))
    {next_token : Option τ} (hnext : get next_token = pageAt L token_generator size idx) :
    follow get calls next_token = pagesFrom L size calls idx := by
  induction calls generalizing idx next_token with
  | zero => rfl
  | succ calls ih =>
    simp only [follow, pagesFrom, hnext, pageAt]
    split
    · rename_i h
      split at h
      · simp at h
      · rename_i hlt
        rw [dif_neg hlt]
        simpa using (Prod.mk.inj h).1.symm
    · rename_i h
      split at h
      · rename_i hlt
        obtain ⟨rfl, htoken⟩ := Prod.mk.inj h
        rw [Option.some.inj htoken.symm, dif_pos hlt,
          ih (hget _ (List.getElem_mem hlt))]
      · simp at h

theorem follow_eq [BEq α] [DecidableEq τ]
    (hinj : Set.InjOn token_generator {a | a ∈ self}) :
    follow (fun token => get_page self token_generator token page_size filter_function) calls none =
      pagesFrom (filtered self filter_function) (page_size.getD DEFAULT_PAGE_SIZE) calls 0 :=
  follow_pageAt _ (fun _ ha => get_page_some hinj ha) get_page_none

/-! ## Where the pages meet -/

section
variable [BEq α] [ReflBEq α]

theorem idxOf_le (h : idx < L.length) : L.idxOf L[idx] ≤ idx := by
  by_contra hlt
  have hfalse := List.not_of_lt_findIdx (Nat.lt_of_not_le hlt)
  rw [beq_self_eq_true] at hfalse
  exact Bool.noConfusion hfalse

theorem idxOf_eq_iff (h : idx < L.length) :
    L.idxOf L[idx] = idx ↔ ∀ i, ∀ hi : i < idx, (L[i] == L[idx]) = false := by
  rw [List.idxOf, List.findIdx_eq h]
  simp

/-- No item behind the start is lost. -/
theorem length_le_pagesFrom {pages : List (List α)} (h : pagesFrom L size calls idx = some pages) :
    L.length ≤ idx + pages.flatten.length := by
  induction calls generalizing idx pages with
  | zero => simp [pagesFrom] at h
  | succ calls ih =>
    unfold pagesFrom at h
    split at h
    · rename_i hlt
      obtain ⟨rest, hrest, rfl⟩ := Option.map_eq_some_iff.mp h
      have hle := idxOf_le hlt
      have hlen := ih hrest
      simp only [List.flatten_cons, List.length_append, List.length_take, List.length_drop]
      omega
    · obtain rfl := Option.some.inj h
      simp only [List.flatten_singleton, List.length_take, List.length_drop]
      omega

theorem pagesFrom_covers (hfirst : PageStartsFirst L size) {k : Nat} (hcalls : 1 ≤ calls)
    (hlen : L.length ≤ k * size + calls * size) :
    ∃ pages, pagesFrom L size calls (k * size) = some pages ∧
      (∀ page ∈ pages, page.length ≤ size) ∧ pages.flatten = L.drop (k * size) := by
  induction calls generalizing k with
  | zero => omega
  | succ calls ih =>
    have hnext : (k + 1) * size = k * size + size := Nat.succ_mul k size
    rw [Nat.succ_mul] at hlen
    simp only [pagesFrom]
    split
    · rename_i hlt
      have hstart : L.idxOf L[k * size + size] = k * size + size :=
        (idxOf_eq_iff hlt).mpr (by simpa only [hnext] using hfirst (k + 1) (by omega))
      have hpos : 1 ≤ calls := by
        rcases Nat.eq_zero_or_pos calls with rfl | h
        · omega
        · exact h
      obtain ⟨pages, hpages, hsize, hflat⟩ := @ih (k + 1) hpos (by omega)
      refine ⟨_, by rw [hstart, ← hnext, hpages]; rfl, ?_, ?_⟩
      · rintro page (_ | ⟨_, hmem⟩)
        · exact List.length_take_le _ _
        · exact hsize page hmem
      · rw [List.flatten_cons, hflat, hnext, ← List.drop_drop, List.take_append_drop]
    · rename_i hge
      refine ⟨_, rfl, by simp, ?_⟩
      rw [List.flatten_singleton, List.take_of_length_le]
      rw [List.length_drop]
      omega

/-- Pages that repeat no item begin where the list goes on. -/
theorem idxOf_of_pagesFrom {pages : List (List α)} {k : Nat}
    (h : pagesFrom L size calls (k * size) = some pages)
    (hlen : k * size + pages.flatten.length ≤ L.length) {m : Nat} (hkm : k < m)
    (hm : m * size < L.length) : L.idxOf L[m * size] = m * size := by
  induction calls generalizing k pages with
  | zero => simp [pagesFrom] at h
  | succ calls ih =>
    have hnext : (k + 1) * size = k * size + size := Nat.succ_mul k size
    have hle : (k + 1) * size ≤ m * size := Nat.mul_le_mul_right size hkm
    rw [pagesFrom, dif_pos (by omega)] at h
    obtain ⟨rest, hrest, rfl⟩ := Option.map_eq_some_iff.mp h
    have hlt : k * size + size < L.length := by omega
    have hbound := length_le_pagesFrom hrest
    have hfirst := idxOf_le hlt
    simp only [List.flatten_cons, List.length_append, List.length_take, List.length_drop] at hlen
    have hstart : L.idxOf L[k * size + size] = (k + 1) * size := by omega
    rcases Nat.eq_or_lt_of_le hkm with rfl | hlt'
    · simpa only [hnext] using hstart
    · rw [hstart] at hrest
      exact ih hrest (by omega) hlt'

end

/-- **The pages cover exactly the filtered list, exactly when each page begins with the
first of its equals.** The tokens are followed from the start, with a token generator
that tells the items apart and a positive page size. -/
theorem covered_iff_pageStartsFirst [BEq α] [ReflBEq α] [DecidableEq τ]
    (hinj : Set.InjOn token_generator {a | a ∈ self})
    (hsize : 1 ≤ page_size.getD DEFAULT_PAGE_SIZE) :
    Covered self token_generator page_size filter_function ↔
      PageStartsFirst (filtered self filter_function) (page_size.getD DEFAULT_PAGE_SIZE) := by
  simp only [Covered, follow_eq hinj]
  generalize filtered self filter_function = L
  generalize page_size.getD DEFAULT_PAGE_SIZE = size at hsize ⊢
  constructor
  · rintro ⟨pages, hpages, -, hflat⟩ k hk i hi
    rcases Nat.eq_zero_or_pos k with rfl | hpos
    · omega
    · refine (idxOf_eq_iff hk).mp ?_ i hi
      rw [← Nat.zero_mul size] at hpages
      exact idxOf_of_pagesFrom hpages (by simp [hflat]) hpos hk
  · intro hfirst
    have hceil : L.length ≤ (L.length + size - 1) / size * size := by
      have hdiv := Nat.div_add_mod' (L.length + size - 1) size
      have hmod := Nat.mod_lt (L.length + size - 1) hsize
      omega
    have hmax : (L.length + size - 1) / size * size ≤
        max 1 ((L.length + size - 1) / size) * size :=
      Nat.mul_le_mul_right size (Nat.le_max_right _ _)
    have hcovers := @pagesFrom_covers α L size (max 1 ((L.length + size - 1) / size)) _ _ hfirst 0
      (Nat.le_max_left 1 _) (by omega)
    simpa only [Nat.zero_mul, List.drop_zero] using hcovers

/-- Three items in pages of two. -/
theorem covered_three : Covered [1, 2, 3] (fun n : Nat => n) (some 2) none :=
  (covered_iff_pageStartsFirst (fun _ _ _ _ h => h) (by decide)).mpr (by
    intro k hk i hi
    have hk2 : k * 2 < 3 := hk
    have hi2 : i < k * 2 := hi
    obtain rfl : k = 1 := by omega
    have hcases : i = 0 ∨ i = 1 := by omega
    rcases hcases with rfl | rfl
    · rfl
    · rfl)

/-- The token of an item that occurs twice leads back to its first occurrence. -/
theorem repeated_not_covered :
    Function.Injective (fun n : Nat => n) ∧ ¬ Covered [0, 0] (fun n : Nat => n) (some 1) none := by
  refine ⟨fun _ _ h => h, ?_⟩
  rintro ⟨pages, hpages, -⟩
  have hnone : follow (fun token => get_page [0, 0] (fun n : Nat => n) token (some 1) none)
      (max 1 ((2 + 1 - 1) / 1)) none = none := by decide
  exact Option.some_ne_none _ (hpages.symm.trans hnone)

end LocalStack.Utils.Pagination
