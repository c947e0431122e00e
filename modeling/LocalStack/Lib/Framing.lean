import Mathlib.Data.List.Forall2

/-! Readers of self-delimiting codes. A reader takes a part of its input and leaves
the rest; what it reads from a code does not depend on what follows the code, so
codes can be written one after another and read back. -/

namespace LocalStack.Framing

variable {β α γ : Type}

abbrev Reader (β α : Type) := StateT (List β) Option α

/-- The next `n` symbols. -/
def takeN (n : Nat) : Reader β (List β) := fun s =>
  if n ≤ s.length then some (s.take n, s.drop n) else none

/-- Reads up to the end of the input, with at most `fuel` turns. -/
def readAll (read : Reader β α) : Nat → List β → Option (List α)
  | _, [] => some []
  | 0, _ :: _ => none
  | fuel + 1, b :: s =>
    match read.run (b :: s) with
    | none => none
    | some (x, rest) => (readAll read fuel rest).map (x :: ·)

/-- `read` takes exactly the code `bs` for `x`, whatever follows it. -/
def Reads (read : Reader β α) (bs : List β) (x : α) : Prop :=
  ∀ rest, read.run (bs ++ rest) = some (x, rest)

theorem reads_pure (x : α) : Reads (pure x : Reader β α) [] x := fun _ => rfl

theorem Reads.bind {read : Reader β α} {f : α → Reader β γ} {bs cs : List β} {x : α} {y : γ}
    (h : Reads read bs x) (h' : Reads (f x) cs y) : Reads (read >>= f) (bs ++ cs) y := by
  intro rest
  rw [StateT.run_bind, List.append_assoc, h]
  exact h' rest

/-- The last step of a reader takes nothing. -/
theorem Reads.map {read : Reader β α} {bs : List β} {x : α} (h : Reads read bs x) (f : α → γ) :
    Reads (do return f (← read)) bs (f x) := by
  rw [← List.append_nil bs]
  exact h.bind (reads_pure _)

/-- A check that holds takes nothing. -/
theorem Reads.guard_bind {p : Prop} [Decidable p] (hp : p) {read : Reader β α} {bs : List β}
    {x : α} (h : Reads read bs x) : Reads (do guard p; read) bs x := by
  intro rest
  rw [guard, if_pos hp]
  exact h rest

/-- A value that is there takes nothing. -/
theorem Reads.some_bind {o : Option γ} {y : γ} (ho : o = some y) {f : γ → Reader β α}
    {bs : List β} {x : α} (h : Reads (f y) bs x) :
    Reads (do f (← (liftM o : Reader β γ))) bs x := by
  subst ho
  exact h

theorem reads_takeN (bs : List β) : Reads (takeN bs.length) bs bs := by
  intro rest
  show takeN bs.length (bs ++ rest) = _
  simp [takeN]

theorem Reads.takeN_bind {n : Nat} {bs cs : List β} (hn : bs.length = n)
    {f : List β → Reader β α} {x : α} (h : Reads (f bs) cs x) :
    Reads (do f (← takeN n)) (bs ++ cs) x := by
  subst hn
  exact (reads_takeN bs).bind h

/-- Codes that are not empty, one after another, are read one after another. -/
theorem readAll_flatten {read : Reader β α} {codes : List (List β)} {xs : List α}
    (h : List.Forall₂ (Reads read) codes xs) (hne : ∀ c ∈ codes, c ≠ []) {fuel : Nat}
    (hfuel : codes.flatten.length ≤ fuel) : readAll read fuel codes.flatten = some xs := by
  induction h generalizing fuel with
  | nil => cases fuel <;> rfl
  | @cons c x codes xs hc _ ih =>
    rw [List.forall_mem_cons] at hne
    obtain ⟨b, c, rfl⟩ := List.exists_cons_of_ne_nil hne.1
    simp only [List.flatten_cons, List.cons_append, List.length_cons, List.length_append] at hfuel
    obtain ⟨fuel, rfl⟩ := Nat.exists_eq_add_of_lt (Nat.lt_of_lt_of_le (Nat.succ_pos _) hfuel)
    have hread := hc codes.flatten
    rw [List.cons_append] at hread
    rw [List.flatten_cons, List.cons_append, Nat.zero_add, readAll, hread]
    simp only
    rw [ih hne.2 (by omega)]
    rfl

end LocalStack.Framing
