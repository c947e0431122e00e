import LocalStack.Lib.PathTree

/-! `merge_recursive` of `utils/collections.py`, with the destination it leaves where it
raises. -/

namespace LocalStack.Utils.Collections
open LocalStack.OrderedDict LocalStack.PathTree

/-- What an operation on a value of another type raises. -/
inductive Raised
  | typeError
  | attributeError
  deriving DecidableEq, Repr

variable {κ α : Type*} [DecidableEq κ]

section
variable (isNone : α → Bool) (overwrite : Bool)

/-- `destination.get(key) in none_values`. -/
def missing (cs : Dict κ (Nested κ α)) (key : κ) : Bool :=
  match cs.get key with
  | none => true
  | some (.leaf a) => isNone a
  | some (.node _) => false

mutual

/-- One round of the loop. -/
def mergeEntry (key : κ) : Nested κ α → Nested κ α → Nested κ α × Except Raised Unit
  | .node _, .leaf a => (.leaf a, .error .attributeError)
  | .node value, .node cs =>
    let merged := merge_recursive value ((Dict.get cs key).getD (.node []))
    (.node (Dict.set cs key merged.1), merged.2)
  | .leaf _, .leaf a => (.leaf a, .error (if overwrite then .typeError else .attributeError))
  | .leaf value, .node cs =>
    if overwrite || missing isNone cs key then (.node (Dict.set cs key (.leaf value)), .ok ())
    else (.node cs, .ok ())
termination_by structural value => value

def merge_recursive : List (κ × Nested κ α) → Nested κ α → Nested κ α × Except Raised Unit
  | [], destination => (destination, .ok ())
  | (key, value) :: source, destination =>
    match mergeEntry key value destination with
    | (destination, .ok ()) => merge_recursive source destination
    | (destination, .error e) => (destination, .error e)
termination_by structural source => source

end

end

variable {isNone : α → Bool}

theorem merge_cons_leaf (overwrite : Bool) (entry : κ × Nested κ α) (source : List (κ × Nested κ α))
    (a : α) : ∃ e, merge_recursive isNone overwrite (entry :: source) (.leaf a) =
      (.leaf a, .error e) := by
  obtain ⟨key, value⟩ := entry
  cases value with
  | leaf b => exact ⟨_, rfl⟩
  | node value => exact ⟨_, rfl⟩

/-! ## Overwriting -/

/-- Where no node of the source meets a leaf of the destination. -/
def Compatible (b s : View κ α) : Prop :=
  ∀ q a, b q = some .node → s q ≠ some (.leaf a)

theorem Compatible.below {cs : List (κ × Nested κ α)} {s : View κ α} {k : κ} {t : Nested κ α}
    (h : Compatible (Nested.node cs).view s) (hk : Dict.get cs k = some t) :
    Compatible t.view (s.child k) :=
  fun q a hq => h (k :: q) a ((Nested.view_node_cons hk q).trans hq)

/-- What is left of the source meets the destination in which the first entry is set. -/
theorem Compatible.rest {key : κ} {value t : Nested κ α} {source cs : List (κ × Nested κ α)}
    (h : Compatible (Nested.node ((key, value) :: source)).view (Nested.node cs).view)
    (hkey : key ∉ Dict.keys source) :
    Compatible (Nested.node source).view (Nested.node (Dict.set cs key t)).view := by
  intro q a hq
  cases q with
  | nil => simp [Nested.site]
  | cons k q =>
    have hk : key ≠ k := by
      rintro rfl
      rw [Nested.view_node_cons_none ((Dict.get_eq_none_iff source key).mpr hkey)] at hq
      cases hq
    rw [Nested.view_set, if_neg hk]
    refine h (k :: q) a ?_
    have hc := View.child_congr (Dict.get_cons_ne value source hk)
    exact (congrFun hc q).trans hq

mutual

theorem mergeEntry_overwrite (key : κ) (value : Nested κ α) (hwf : value.WF)
    (cs : List (κ × Nested κ α)) (h : Compatible value.view ((Nested.node cs).view.child key)) :
    ∃ t, mergeEntry isNone true key value (.node cs) = (.node (Dict.set cs key t), .ok ()) ∧
      t.view = value.view.overlay ((Nested.node cs).view.child key) := by
  cases value with
  | leaf a =>
    refine ⟨.leaf a, rfl, funext fun q => ?_⟩
    exact (View.overlay_of_covers ⟨[], List.nil_prefix, a, rfl⟩).symm
  | node value =>
    cases hk : Dict.get cs key with
    | some node =>
      rw [View.child_node hk] at h ⊢
      obtain ⟨t, ht, hview⟩ := merge_overwrite value hwf node h
      refine ⟨t, ?_, hview⟩
      simp only [mergeEntry, hk, Option.getD_some, ht]
    | none =>
      have hnew : Compatible (Nested.node value).view (Nested.node ([] : List (κ × Nested κ α))).view := by
        intro q a _
        cases q with
        | nil => simp [Nested.site]
        | cons k q => simp [Nested.view]
      obtain ⟨t, ht, hview⟩ := merge_overwrite value hwf (.node []) hnew
      refine ⟨t, ?_, ?_⟩
      · simp only [mergeEntry, hk, Option.getD_none, ht]
      · rw [hview, View.child_node_none hk, View.overlay_view _ fun _ _ => rfl,
          View.overlay_view _ fun _ _ => rfl]
termination_by structural value

/-- Merging with `overwrite` lays the source over the destination. -/
theorem merge_overwrite (source : List (κ × Nested κ α)) (hwf : (Nested.node source).WF)
    (d : Nested κ α) (h : Compatible (Nested.node source).view d.view) :
    ∃ d', merge_recursive isNone true source d = (d', .ok ()) ∧
      d'.view = (Nested.node source).view.overlay d.view := by
  cases d with
  | leaf a => exact absurd rfl (h [] a rfl)
  | node cs =>
    cases source with
    | nil =>
      refine ⟨.node cs, rfl, funext fun q => ?_⟩
      cases q with
      | nil => exact (View.overlay_of_some rfl).symm
      | cons k q =>
        rw [View.overlay_cons rfl, View.child_node_none (Dict.get_nil k), View.overlay_empty]
        rfl
    | cons entry source =>
      obtain ⟨key, value⟩ := entry
      cases hwf with
      | node hd hc =>
        obtain ⟨hkey, hd⟩ := (Dict.wf_cons _ _).mp hd
        obtain ⟨t, ht, hview⟩ := mergeEntry_overwrite key value (hc _ List.mem_cons_self) cs
          (h.below (Dict.get_cons_self key value source))
        obtain ⟨d', hd', hview'⟩ := merge_overwrite source
          (.node hd fun p hp => hc p (List.mem_cons_of_mem _ hp)) (.node (Dict.set cs key t))
          (h.rest hkey)
        refine ⟨d', ?_, funext fun q => ?_⟩
        · simp only [merge_recursive, ht, hd']
        · rw [hview']
          cases q with
          | nil => exact (View.overlay_of_some rfl).trans (View.overlay_of_some rfl).symm
          | cons k q =>
            rw [View.overlay_cons rfl, View.overlay_cons rfl]
            by_cases hk : key = k
            · subst hk
              rw [View.child_node_none ((Dict.get_eq_none_iff source key).mpr hkey),
                View.overlay_empty, View.child_set_self, hview,
                View.child_node (Dict.get_cons_self key value source)]
            · rw [View.child_congr (Dict.get_cons_ne value source hk),
                View.child_congr (Dict.get_set_ne cs t hk)]
termination_by structural source

end

end LocalStack.Utils.Collections
