import Mathlib.Data.Finset.Card
import Mathlib.Logic.Relation

/-! A search through a graph with a stack of nodes. Only the nodes of one kind are
recorded; the others are expanded each time they are met. The search ends if the others
are well founded, and it records exactly what can be reached. -/

namespace LocalStack.Worklist

variable {ν : Type*} [DecidableEq ν]

section
variable (succ : ν → List ν) (kept : ν → Bool)

/-- The search in a number of turns, with the top of the stack as the head; `none` where
the turns do not suffice. -/
def search : Nat → List ν → Finset ν → Option (Finset ν)
  | _, [], result => some result
  | 0, _ :: _, _ => none
  | turns + 1, x :: stack, result =>
    if x ∈ result then search turns stack result
    else if kept x = true then search turns ((succ x).reverse ++ stack) (insert x result)
    else search turns ((succ x).reverse ++ stack) result

/-- The search from a stack ends. -/
def Ends (stack : List ν) (result : Finset ν) : Prop :=
  ∃ turns r, search succ kept turns stack result = some r

end

variable {succ : ν → List ν} {kept : ν → Bool} {x y : ν} {stack : List ν} {result r : Finset ν}
  {turns : Nat}

/-! ## The end of a search -/

@[simp] theorem search_nil (turns : Nat) (result : Finset ν) :
    search succ kept turns [] result = some result := by
  cases turns <;> rfl

theorem Ends.seen (hx : x ∈ result) (h : Ends succ kept stack result) :
    Ends succ kept (x :: stack) result := by
  obtain ⟨turns, r, h⟩ := h
  exact ⟨turns + 1, r, by rw [search, if_pos hx, h]⟩

theorem Ends.record (hx : x ∉ result) (hk : kept x = true)
    (h : Ends succ kept ((succ x).reverse ++ stack) (insert x result)) :
    Ends succ kept (x :: stack) result := by
  obtain ⟨turns, r, h⟩ := h
  exact ⟨turns + 1, r, by rw [search, if_neg hx, if_pos hk, h]⟩

theorem Ends.expand (hx : x ∉ result) (hk : ¬ kept x = true)
    (h : Ends succ kept ((succ x).reverse ++ stack) result) :
    Ends succ kept (x :: stack) result := by
  obtain ⟨turns, r, h⟩ := h
  exact ⟨turns + 1, r, by rw [search, if_neg hx, if_neg hk, h]⟩

/-- Recording a node leaves fewer to record. -/
theorem card_sdiff_insert_lt {nodes : Finset ν} (hx : x ∈ nodes) (h : x ∉ result) :
    (nodes \ insert x result).card < (nodes \ result).card := by
  refine Finset.card_lt_card ((Finset.ssubset_iff_of_subset ?_).mpr ⟨x, ?_, ?_⟩)
  · exact Finset.sdiff_subset_sdiff (Finset.Subset.refl _) (Finset.subset_insert _ _)
  · exact Finset.mem_sdiff.mpr ⟨hx, h⟩
  · simp

/-- **A search among finitely many nodes ends** if no chain of expanded nodes is
infinite: each turn records one of the nodes, or expands towards the end of a chain. -/
theorem ends_of_wellFounded {nodes : Finset ν} (hclosed : ∀ x ∈ nodes, ∀ y ∈ succ x, y ∈ nodes)
    (hwf : WellFounded fun y x => kept x = false ∧ y ∈ succ x)
    (hstack : ∀ x ∈ stack, x ∈ nodes) : Ends succ kept stack result := by
  induction hcard : (nodes \ result).card using Nat.strong_induction_on
    generalizing stack result with
  | _ n ih =>
    -- one node on top of a stack from which the search ends
    have htop : ∀ x, x ∈ nodes → ∀ stack, (∀ y ∈ stack, y ∈ nodes) → Ends succ kept stack result →
        Ends succ kept (x :: stack) result := by
      intro x
      induction x using hwf.induction with
      | _ x ihx =>
        intro hx stack hstack hends
        by_cases hmem : x ∈ result
        · exact hends.seen hmem
        by_cases hk : kept x = true
        · refine Ends.record hmem hk (ih _ (hcard ▸ card_sdiff_insert_lt hx hmem) ?_ rfl)
          intro y hy
          rcases List.mem_append.mp hy with hy | hy
          · exact hclosed x hx y (List.mem_reverse.mp hy)
          · exact hstack y hy
        · refine Ends.expand hmem hk ?_
          have hsucc : ∀ l : List ν, (∀ y ∈ l, y ∈ succ x) →
              Ends succ kept (l ++ stack) result := by
            intro l
            induction l with
            | nil => exact fun _ => hends
            | cons y l ihl =>
              intro hl
              have hy := hl y (by simp)
              refine ihx y ⟨by simpa using hk, hy⟩ (hclosed x hx y hy) (l ++ stack) ?_
                (ihl fun z hz => hl z (by simp [hz]))
              intro z hz
              rcases List.mem_append.mp hz with hz | hz
              · exact hclosed x hx z (hl z (by simp [hz]))
              · exact hstack z hz
          exact hsucc _ fun y hy => List.mem_reverse.mp hy
    clear hcard
    induction stack with
    | nil => exact ⟨0, result, search_nil 0 result⟩
    | cons x stack ihs =>
      exact htop x (hstack x (by simp)) stack (fun y hy => hstack y (by simp [hy]))
        (ihs fun y hy => hstack y (by simp [hy]))

/-! ## The result of a search -/

/-- A node has been recorded or is still to be, with all that stands for it. -/
inductive Pending (succ : ν → List ν) (kept : ν → Bool) (stack : List ν) (result : Finset ν) :
    ν → Prop
  | recorded {x : ν} : x ∈ result → Pending succ kept stack result x
  | stacked {x : ν} : x ∈ stack → Pending succ kept stack result x
  | expanded {x : ν} : kept x = false → (∀ y ∈ succ x, Pending succ kept stack result y) →
      Pending succ kept stack result x

omit [DecidableEq ν] in
theorem Pending.mono {stack' : List ν} {result' : Finset ν} (h : Pending succ kept stack result x)
    (hresult : ∀ x ∈ result, Pending succ kept stack' result' x)
    (hstack : ∀ x ∈ stack, Pending succ kept stack' result' x) :
    Pending succ kept stack' result' x := by
  induction h with
  | recorded hx => exact hresult _ hx
  | stacked hx => exact hstack _ hx
  | expanded hk _ ih => exact .expanded hk ih

/-- A node can be reached from one of the first nodes. -/
def Reachable (succ : ν → List ν) (initial : List ν) (x : ν) : Prop :=
  ∃ i ∈ initial, Relation.ReflTransGen (fun x y => y ∈ succ x) i x

omit [DecidableEq ν] in
theorem Reachable.step {initial : List ν} (h : Reachable succ initial x) (hy : y ∈ succ x) :
    Reachable succ initial y := by
  obtain ⟨i, hi, hpath⟩ := h
  exact ⟨i, hi, hpath.tail hy⟩

/-- The invariant of the search. -/
structure Invariant (succ : ν → List ν) (kept : ν → Bool) (initial stack : List ν)
    (result : Finset ν) : Prop where
  sound : ∀ x ∈ result, kept x = true ∧ Reachable succ initial x
  reachable : ∀ x ∈ stack, Reachable succ initial x
  initial : ∀ x ∈ initial, Pending succ kept stack result x
  closed : ∀ x ∈ result, ∀ y ∈ succ x, Pending succ kept stack result y

variable {initial : List ν}

omit [DecidableEq ν] in
theorem Invariant.start : Invariant succ kept initial initial.reverse ∅ where
  sound := by simp
  reachable := fun x hx => ⟨x, List.mem_reverse.mp hx, .refl⟩
  initial := fun x hx => .stacked (List.mem_reverse.mpr hx)
  closed := by simp

omit [DecidableEq ν] in
theorem Invariant.seen (h : Invariant succ kept initial (x :: stack) result) (hx : x ∈ result) :
    Invariant succ kept initial stack result := by
  have hmono : ∀ z, Pending succ kept (x :: stack) result z → Pending succ kept stack result z := by
    intro z hz
    refine hz.mono (fun y hy => .recorded hy) ?_
    rintro y (_ | ⟨_, hy⟩)
    · exact .recorded hx
    · exact .stacked hy
  exact ⟨h.sound, fun z hz => h.reachable z (by simp [hz]), fun z hz => hmono z (h.initial z hz),
    fun z hz y hy => hmono y (h.closed z hz y hy)⟩

theorem Invariant.record (h : Invariant succ kept initial (x :: stack) result)
    (hk : kept x = true) :
    Invariant succ kept initial ((succ x).reverse ++ stack) (insert x result) := by
  have hmono : ∀ z, Pending succ kept (x :: stack) result z →
      Pending succ kept ((succ x).reverse ++ stack) (insert x result) z := by
    intro z hz
    refine hz.mono (fun y hy => .recorded (Finset.mem_insert_of_mem hy)) ?_
    rintro y (_ | ⟨_, hy⟩)
    · exact .recorded (Finset.mem_insert_self _ _)
    · exact .stacked (List.mem_append_right _ hy)
  have hreach : Reachable succ initial x := h.reachable x (by simp)
  refine ⟨?_, ?_, fun z hz => hmono z (h.initial z hz), ?_⟩
  · intro z hz
    rcases Finset.mem_insert.mp hz with rfl | hz
    · exact ⟨hk, hreach⟩
    · exact h.sound z hz
  · intro z hz
    rcases List.mem_append.mp hz with hz | hz
    · exact hreach.step (List.mem_reverse.mp hz)
    · exact h.reachable z (by simp [hz])
  · intro z hz y hy
    rcases Finset.mem_insert.mp hz with rfl | hz
    · exact .stacked (List.mem_append_left _ (List.mem_reverse.mpr hy))
    · exact hmono y (h.closed z hz y hy)

omit [DecidableEq ν] in
theorem Invariant.expand (h : Invariant succ kept initial (x :: stack) result)
    (hk : kept x = false) :
    Invariant succ kept initial ((succ x).reverse ++ stack) result := by
  have hmono : ∀ z, Pending succ kept (x :: stack) result z →
      Pending succ kept ((succ x).reverse ++ stack) result z := by
    intro z hz
    refine hz.mono (fun y hy => .recorded hy) ?_
    rintro y (_ | ⟨_, hy⟩)
    · exact .expanded hk fun z hz => .stacked (List.mem_append_left _ (List.mem_reverse.mpr hz))
    · exact .stacked (List.mem_append_right _ hy)
  refine ⟨h.sound, ?_, fun z hz => hmono z (h.initial z hz),
    fun z hz y hy => hmono y (h.closed z hz y hy)⟩
  intro z hz
  rcases List.mem_append.mp hz with hz | hz
  · exact (h.reachable x (by simp)).step (List.mem_reverse.mp hz)
  · exact h.reachable z (by simp [hz])

theorem Invariant.search (hi : Invariant succ kept initial stack result)
    (h : search succ kept turns stack result = some r) : Invariant succ kept initial [] r := by
  induction turns generalizing stack result with
  | zero =>
    cases stack with
    | nil =>
      obtain rfl := Option.some.inj h
      exact hi
    | cons x stack => simp [Worklist.search] at h
  | succ turns ih =>
    cases stack with
    | nil =>
      obtain rfl := Option.some.inj h
      exact hi
    | cons x stack =>
      rw [Worklist.search] at h
      split at h
      · rename_i hx
        exact ih (hi.seen hx) h
      · split at h
        · rename_i hk
          exact ih (hi.record hk) h
        · rename_i hk
          exact ih (hi.expand (by simpa using hk)) h

/-- **The search records exactly the reachable nodes of its kind.** -/
theorem mem_of_search (h : search succ kept turns initial.reverse ∅ = some r) :
    x ∈ r ↔ kept x = true ∧ Reachable succ initial x := by
  have hi := Invariant.start.search h
  constructor
  · exact hi.sound x
  · rintro ⟨hk, i, hmem, hpath⟩
    have hpending : Pending succ kept [] r x := by
      clear hk
      induction hpath with
      | refl => exact hi.initial i hmem
      | tail _ hstep ih =>
        cases ih with
        | recorded hx => exact hi.closed _ hx _ hstep
        | stacked hx => exact absurd hx List.not_mem_nil
        | expanded _ hall => exact hall _ hstep
    cases hpending with
    | recorded hx => exact hx
    | stacked hx => exact absurd hx List.not_mem_nil
    | expanded hk' _ => exact absurd (hk.symm.trans hk') Bool.noConfusion

end LocalStack.Worklist
