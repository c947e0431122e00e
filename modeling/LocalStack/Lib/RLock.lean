import Mathlib.Logic.Function.Basic
import Mathlib.Data.List.Basic

/-! A lock that its owner can take again, and threads that run nested calls under
it. Each thread has a stack of calls, the innermost first; a call is inside or outside
the lock, and a thread holds the lock as often as it has calls inside. -/

namespace LocalStack

/-- The thread that holds the lock, and how often it has taken it again. -/
structure RLock where
  owner : Option (Nat × Nat)
deriving DecidableEq

namespace RLock

def free : RLock := ⟨none⟩

/-- How often thread `t` has to release the lock. -/
def count (l : RLock) (t : Nat) : Nat :=
  match l.owner with
  | none => 0
  | some (o, again) => if o = t then again + 1 else 0

/-- `none` where thread `t` has to wait. -/
def acquire (l : RLock) (t : Nat) : Option RLock :=
  match l.owner with
  | none => some ⟨some (t, 0)⟩
  | some (o, again) => if o = t then some ⟨some (t, again + 1)⟩ else none

def release (l : RLock) : RLock :=
  match l.owner with
  | some (o, again + 1) => ⟨some (o, again)⟩
  | _ => ⟨none⟩

variable {l l' : RLock} {t t' : Nat}

@[simp] theorem count_free (t : Nat) : free.count t = 0 := rfl

theorem eq_of_count_pos (h : 0 < l.count t) (h' : 0 < l.count t') : t' = t := by
  unfold count at h h'
  split at h
  · simp at h
  · rename_i o again hl
    simp only [hl] at h'
    split at h
    · split at h'
      · omega
      · simp at h'
    · simp at h

theorem acquire_count (h : l.acquire t = some l') (t' : Nat) :
    l'.count t' = if t' = t then l.count t + 1 else l.count t' := by
  unfold acquire at h
  split at h
  · rename_i hl
    cases h
    simp [count, hl, eq_comm]
  · rename_i o again hl
    split at h
    · rename_i ho
      cases h
      by_cases ht : t' = t
      · simp [count, hl, ho, ht]
      · simp [count, hl, ho, ht, Ne.symm ht]
    · cases h

theorem release_count (h : 0 < l.count t) (t' : Nat) :
    l.release.count t' = if t' = t then l.count t - 1 else l.count t' := by
  unfold count at h
  split at h
  · simp at h
  · rename_i o again hl
    split at h
    · rename_i ho
      subst ho
      cases again with
      | zero => simp [release, count, hl, eq_comm]
      | succ n =>
        by_cases ht : t' = o
        · simp [release, count, hl, ht]
        · simp [release, count, hl, ht, Ne.symm ht]
    · simp at h

/-! ## Stacks of calls -/

variable {π : Type*} {inside : π → Bool} {frames frames' : Nat → List π}

/-- Every thread holds the lock once for each of its calls inside. -/
def Held (inside : π → Bool) (frames : Nat → List π) (l : RLock) : Prop :=
  ∀ t, (frames t).countP inside = l.count t

theorem held_free (h : ∀ t, frames t = []) : Held inside frames free := by
  intro t
  simp [h]

/-- Calls inside the lock are calls of one thread. -/
theorem Held.exclusive (h : Held inside frames l) {p q : π} (hp : p ∈ frames t)
    (hi : inside p = true) (hq : q ∈ frames t') (hj : inside q = true) : t' = t := by
  refine eq_of_count_pos (l := l) ?_ ?_
  · rw [← h t]
    exact List.countP_pos_iff.mpr ⟨p, hp, hi⟩
  · rw [← h t']
    exact List.countP_pos_iff.mpr ⟨q, hq, hj⟩

theorem Held.of_count (h : Held inside frames l)
    (hc : ∀ t, (frames' t).countP inside = (frames t).countP inside) : Held inside frames' l :=
  fun t => (hc t).trans (h t)

theorem Held.acquire (h : Held inside frames l) (ha : l.acquire t = some l')
    (ht : (frames' t).countP inside = (frames t).countP inside + 1)
    (ho : ∀ t' ≠ t, (frames' t').countP inside = (frames t').countP inside) :
    Held inside frames' l' := by
  intro t'
  rw [acquire_count ha]
  by_cases he : t' = t
  · rw [if_pos he, he, ht, h]
  · rw [if_neg he, ho t' he, h]

theorem Held.release (h : Held inside frames l)
    (ht : (frames' t).countP inside + 1 = (frames t).countP inside)
    (ho : ∀ t' ≠ t, (frames' t').countP inside = (frames t').countP inside) :
    Held inside frames' l.release := by
  have hpos : 0 < l.count t := by
    rw [← h t, ← ht]
    exact Nat.succ_pos _
  intro t'
  rw [release_count hpos]
  by_cases he : t' = t
  · rw [if_pos he, he, ← h t, ← ht, Nat.add_sub_cancel]
  · rw [if_neg he, ho t' he, h]

end RLock

end LocalStack
