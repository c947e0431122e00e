import LocalStack.Lib.OrderedDict
import Mathlib.Data.List.Infix

/-! Trees of nested dictionaries, seen as what stands at each path. `View.put` sets one
path and leaves all that are apart from it; `View.overlay` lays a tree over another. -/

namespace LocalStack.PathTree
open LocalStack.OrderedDict

/-- A nested dictionary, with anything at its leaves. -/
inductive Nested (κ α : Type*)
  | leaf (a : α)
  | node (children : List (κ × Nested κ α))

/-- What stands at a path. -/
inductive Site (α : Type*)
  | leaf (a : α)
  | node
  deriving DecidableEq, Repr

abbrev View (κ α : Type*) := List κ → Option (Site α)

variable {κ α : Type*}

namespace Nested

/-- Keys are distinct at every node. -/
inductive WF : Nested κ α → Prop
  | leaf (a : α) : WF (.leaf a)
  | node {cs : List (κ × Nested κ α)} (hd : Dict.WF cs) (hc : ∀ p ∈ cs, WF p.2) : WF (.node cs)

def site : Nested κ α → Site α
  | .leaf a => .leaf a
  | .node _ => .node

def isNode : Nested κ α → Bool
  | .leaf _ => false
  | .node _ => true

variable [DecidableEq κ]

/-- What stands at a path of the tree. -/
def view : Nested κ α → View κ α
  | t, [] => some t.site
  | .leaf _, _ :: _ => none
  | .node cs, k :: q =>
    match Dict.get cs k with
    | some t => view t q
    | none => none

@[simp] theorem view_nil (t : Nested κ α) : t.view [] = some t.site := by
  cases t <;> rfl

@[simp] theorem view_leaf_cons (a : α) (k : κ) (q : List κ) :
    (leaf a : Nested κ α).view (k :: q) = none := rfl

theorem view_node_cons {cs : List (κ × Nested κ α)} {k : κ} {t : Nested κ α}
    (h : Dict.get cs k = some t) (q : List κ) : (node cs).view (k :: q) = t.view q := by
  simp only [view, h]

theorem view_node_cons_none {cs : List (κ × Nested κ α)} {k : κ} (h : Dict.get cs k = none)
    (q : List κ) : (node cs).view (k :: q) = none := by
  simp only [view, h]

theorem view_set (cs : List (κ × Nested κ α)) (k : κ) (t : Nested κ α) (k' : κ) (q : List κ) :
    (node (Dict.set cs k t)).view (k' :: q) =
      if k = k' then t.view q else (node cs).view (k' :: q) := by
  rw [view, Dict.get_set]
  by_cases hk : k = k'
  · rw [if_pos hk, if_pos hk]
  · rw [if_neg hk, if_neg hk]
    rfl

/-- Nothing stands below a leaf, nor below a place where nothing stands. -/
theorem view_append_eq_none {t : Nested κ α} {p : List κ} (h : t.view p ≠ some .node) {r : List κ}
    (hr : r ≠ []) : t.view (p ++ r) = none := by
  induction p generalizing t with
  | nil =>
    obtain ⟨k, r, rfl⟩ := List.exists_cons_of_ne_nil hr
    cases t with
    | leaf a => rfl
    | node cs => exact absurd rfl h
  | cons k p ih =>
    cases t with
    | leaf a => rfl
    | node cs =>
      rw [List.cons_append]
      cases hk : Dict.get cs k with
      | none => exact view_node_cons_none hk _
      | some t =>
        rw [view_node_cons hk] at h ⊢
        exact ih h

theorem view_eq_none_of_prefix {t : Nested κ α} {p q : List κ} (h : t.view p = none)
    (hq : p <+: q) : t.view q = none := by
  obtain ⟨r, rfl⟩ := hq
  by_cases hr : r = []
  · rw [hr, List.append_nil, h]
  · exact view_append_eq_none (by rw [h]; exact nofun) hr

theorem WF.set {cs : List (κ × Nested κ α)} {t : Nested κ α} (h : (Nested.node cs).WF)
    (ht : t.WF) (k : κ) : (Nested.node (Dict.set cs k t)).WF := by
  cases h with
  | node hd hc =>
    refine .node (Dict.wf_set hd k t) fun p hp => ?_
    rcases Dict.mem_set hp with hp | rfl
    · exact hc p hp
    · exact ht

theorem WF.get {cs : List (κ × Nested κ α)} {k : κ} {t : Nested κ α} (h : (Nested.node cs).WF)
    (hk : Dict.get cs k = some t) : t.WF := by
  cases h with
  | node hd hc => exact hc _ (Dict.mem_of_get hk)

end Nested

namespace View

section
variable [DecidableEq κ]

/-- The path `p` gets the tree `v`, the paths above it become nodes, and every other path
is left as it was. -/
def put (p : List κ) (v : Nested κ α) (s : View κ α) : View κ α := fun q =>
  if p <+: q then v.view (q.drop p.length) else if q <+: p then some .node else s q

/-- To set a key is to put a path of length one. -/
theorem put_singleton (cs : List (κ × Nested κ α)) (k : κ) (t : Nested κ α) :
    put [k] t (Nested.node cs).view = (Nested.node (Dict.set cs k t)).view := by
  funext q
  cases q with
  | nil => simp [put, Nested.site]
  | cons k' q =>
    rw [Nested.view_set]
    by_cases hk : k = k'
    · simp [put, hk]
    · simp [put, hk, Ne.symm hk]

/-- To set a key of a child, which is made if it is missing, is to put a path of length
two. -/
theorem put_pair {cs ds : List (κ × Nested κ α)} {k : κ}
    (h : (Dict.get cs k).getD (.node []) = .node ds) (j : κ) (t : Nested κ α) :
    put [k, j] t (Nested.node cs).view =
      (Nested.node (Dict.set cs k (.node (Dict.set ds j t)))).view := by
  have hbelow : ∀ i q, (Nested.node cs).view (k :: i :: q) = (Nested.node ds).view (i :: q) := by
    intro i q
    cases hk : Dict.get cs k with
    | some u =>
      rw [hk, Option.getD_some] at h
      rw [Nested.view_node_cons hk, h]
    | none =>
      rw [hk, Option.getD_none] at h
      rw [Nested.view_node_cons_none hk, ← h]
      rfl
  funext q
  cases q with
  | nil => simp [put, Nested.site]
  | cons k' q =>
    rw [Nested.view_set]
    by_cases hk : k = k'
    · subst hk
      rw [if_pos rfl, ← put_singleton]
      cases q with
      | nil => simp [put]
      | cons i q => simp [put, hbelow]
    · simp [put, hk, Ne.symm hk]

theorem put_ne_none {p : List κ} {v : Nested κ α} {s : View κ α} {q : List κ}
    (h : put p v s q ≠ none) : put p v (fun _ => none) q ≠ none ∨ s q ≠ none := by
  unfold put at h ⊢
  split_ifs at h ⊢ with hp hq
  · exact .inl h
  · exact .inl h
  · exact .inr h

end

/-- A leaf of the view at or above the path. -/
def Covers (b : View κ α) (q : List κ) : Prop := ∃ r, r <+: q ∧ ∃ a, b r = some (.leaf a)

open Classical in
/-- `b` laid over `s`: what a leaf of `b` covers is hidden. -/
noncomputable def overlay (b s : View κ α) : View κ α := fun q =>
  if Covers b q then b q else (b q).or (s q)

theorem overlay_of_some {b s : View κ α} {q : List κ} {x : Site α} (h : b q = some x) :
    overlay b s q = some x := by
  simp [overlay, h]

theorem overlay_of_covers {b s : View κ α} {q : List κ} (h : Covers b q) :
    overlay b s q = b q := if_pos h

theorem overlay_of_not_covers {b s : View κ α} {q : List κ} (h : ¬ Covers b q)
    (hq : b q = none) : overlay b s q = s q := by
  rw [overlay, if_neg h, hq, Option.none_or]

/-- The views below one key. -/
def child (k : κ) (b : View κ α) : View κ α := fun q => b (k :: q)

theorem covers_cons {b : View κ α} (h : b [] = some .node) (k : κ) (q : List κ) :
    Covers b (k :: q) ↔ Covers (child k b) q := by
  constructor
  · rintro ⟨r, hr, a, ha⟩
    cases r with
    | nil => simp [h] at ha
    | cons k' r =>
      obtain ⟨rfl, hr'⟩ := List.cons_prefix_cons.mp hr
      exact ⟨r, hr', a, ha⟩
  · rintro ⟨r, hr, a, ha⟩
    exact ⟨k :: r, List.cons_prefix_cons.mpr ⟨rfl, hr⟩, a, ha⟩

theorem overlay_cons {b s : View κ α} (h : b [] = some .node) (k : κ) (q : List κ) :
    overlay b s (k :: q) = overlay (child k b) (child k s) q := by
  unfold overlay
  rw [covers_cons h]
  rfl

theorem overlay_empty (s : View κ α) : overlay (fun _ => none) s = s := by
  funext q
  refine overlay_of_not_covers ?_ rfl
  rintro ⟨r, -, a, ha⟩
  cases ha

variable [DecidableEq κ]

theorem child_node {cs : List (κ × Nested κ α)} {k : κ} {t : Nested κ α}
    (h : Dict.get cs k = some t) : child k (Nested.node cs).view = t.view :=
  funext fun q => Nested.view_node_cons h q

theorem child_node_none {cs : List (κ × Nested κ α)} {k : κ} (h : Dict.get cs k = none) :
    child k (Nested.node cs).view = fun _ => none :=
  funext fun q => Nested.view_node_cons_none h q

theorem child_set_self (cs : List (κ × Nested κ α)) (k : κ) (t : Nested κ α) :
    child k (Nested.node (Dict.set cs k t)).view = t.view :=
  child_node (Dict.get_set_self cs k t)

theorem child_congr {cs ds : List (κ × Nested κ α)} {k : κ} (h : Dict.get cs k = Dict.get ds k) :
    child k (Nested.node cs).view = child k (Nested.node ds).view := by
  funext q
  simp only [child, Nested.view, h]

/-- Over nothing at all, or over a bare node, a tree is as it is. -/
theorem overlay_view (t : Nested κ α) {s : View κ α} (hs : ∀ k q, s (k :: q) = none) :
    overlay t.view s = t.view := by
  funext q
  cases hq : t.view q with
  | some x => exact overlay_of_some hq
  | none =>
    cases q with
    | nil => simp at hq
    | cons k q =>
      by_cases hc : Covers t.view (k :: q)
      · rw [overlay_of_covers hc, hq]
      · rw [overlay_of_not_covers hc hq, hs]

/-- Setting a path of the upper tree is setting it in the overlay: where a node is set,
the lower tree must have nothing there, and the path must not pass a leaf. -/
theorem overlay_put {p : List κ} {v : Nested κ α} {b s : View κ α}
    (hp : ∀ r, r <+: p → r ≠ p → ∀ a, b r ≠ some (.leaf a))
    (hv : v.isNode = true → ∀ q, p <+: q → s q = none) :
    overlay (put p v b) s = put p v (overlay b s) := by
  funext q
  by_cases hpq : p <+: q
  · have hb : put p v b q = v.view (q.drop p.length) := if_pos hpq
    have ho : put p v (overlay b s) q = v.view (q.drop p.length) := if_pos hpq
    rw [ho]
    cases hq : v.view (q.drop p.length) with
    | some x => exact overlay_of_some (hb.trans hq)
    | none =>
      by_cases hc : Covers (put p v b) q
      · rw [overlay_of_covers hc, hb, hq]
      · rw [overlay_of_not_covers hc (hb.trans hq)]
        cases v with
        | node cs => exact hv rfl q hpq
        | leaf a =>
          refine absurd ⟨p, hpq, a, ?_⟩ hc
          simp [put, Nested.site]
  · by_cases hqp : q <+: p
    · have hb : ∀ s, put p v s q = some .node := fun s => by simp [put, hpq, hqp]
      rw [hb, overlay_of_some (hb b)]
    · have hb : ∀ s, put p v s q = s q := fun s => by simp [put, hpq, hqp]
      have hc : Covers (put p v b) q ↔ Covers b q := by
        refine exists_congr fun r => and_congr_right fun hr => exists_congr fun a => ?_
        by_cases hrp : r <+: p
        · -- above the path there is a node afterwards, and no leaf before
          have hne : r ≠ p := by
            rintro rfl
            exact hpq hr
          have hpr : ¬ p <+: r := fun h => hpq (h.trans hr)
          simp [put, hpr, hrp, hp r hrp hne a]
        · have hpr : ¬ p <+: r := fun h => hpq (h.trans hr)
          simp [put, hpr, hrp]
      rw [hb]
      unfold overlay
      rw [hb, hc]

end View

end LocalStack.PathTree
