import LocalStack.Lib.Runs
import Mathlib.Data.List.Count
import Mathlib.Logic.Function.Basic

/-! `Once` and `once_func` of `utils/sync.py`, for any number of instances and threads.
A function that calls `do` is below that call in the stack of its thread. -/

namespace LocalStack.Utils.Once
open LocalStack.Runs

variable {α ε : Type*}

/-- What a function raises: an `Exception`, or a `BaseException` that is none. -/
inductive Raised (ε : Type*)
  | exception (e : ε)
  | exit (e : ε)
  deriving DecidableEq, Repr

/-- Where a call stands: in `do`, from the unlocked test to the release of the lock, or
behind it in the wrapper of `once_func`. -/
inductive Point (ε : Type*)
  | enter
  | acquire
  | recheck
  | running
  | finish (raised : Option (Raised ε))
  | leave (raised : Option (Raised ε))
  | readException
  | readResult
  deriving DecidableEq, Repr

/-- A call for the instance `once`. -/
structure Frame (ε : Type*) where
  once : Nat
  point : Point ε
  deriving DecidableEq, Repr

/-- `mu` is the lock that is an attribute of the class; it has the thread that holds it.
`result` and `exception` are the variables of the functions that `once_func` wraps.
`runs` counts the functions that an instance has run, `returned` has the calls of `do`
that have returned or raised, and `answers` what the wrappers have. -/
structure World (α ε : Type*) where
  is_done : Nat → Bool
  mu : Option Nat
  result : Nat → Option α
  exception : Nat → Option ε
  frames : Nat → List (Frame ε)
  runs : Nat → Nat
  returned : List Nat
  answers : List (Nat × Except (Raised ε) (Option α))

/-- Thread `t` calls `do`, or the wrapper, for an instance, or its innermost call goes
on; `outcome` is that of the function, where it ends. -/
inductive Action (α ε : Type*)
  | call (thread : Nat) (once : Nat)
  | move (thread : Nat) (outcome : Except (Raised ε) α)

namespace World

def setStack (w : World α ε) (t : Nat) (l : List (Frame ε)) : World α ε :=
  { w with frames := Function.update w.frames t l }

/-- The wrapper ends. -/
def answer (w : World α ε) (t k : Nat) (rest : List (Frame ε))
    (r : Except (Raised ε) (Option α)) : World α ε :=
  { w with answers := w.answers ++ [(k, r)] }.setStack t rest

/-- `do` ends; `wraps` tells which instances belong to `once_func`. -/
def doReturns (wraps : Nat → Bool) (w : World α ε) (t k : Nat) (rest : List (Frame ε))
    (raised : Option (Raised ε)) : World α ε :=
  let w := { w with returned := w.returned ++ [k] }
  if wraps k then
    match raised with
    | none => w.setStack t (⟨k, .readException⟩ :: rest)
    | some e => w.answer t k rest (.error e)
  else w.setStack t rest

/-- The function ends. In `_do`, a result and an `Exception` are kept. -/
def record (wraps : Nat → Bool) (w : World α ε) (k : Nat) (outcome : Except (Raised ε) α) :
    World α ε :=
  if wraps k then
    match outcome with
    | .ok v => { w with result := Function.update w.result k (some v) }
    | .error (.exception e) => { w with exception := Function.update w.exception k (some e) }
    | .error (.exit _) => w
  else w

end World

/-- What the function raised, if it did. -/
def raisedOf (outcome : Except (Raised ε) α) : Option (Raised ε) :=
  match outcome with
  | .ok _ => none
  | .error e => some e

section
variable (wraps : Nat → Bool)

/-- The innermost call of thread `t`, for instance `k`, goes on from `p`. -/
def move (w : World α ε) (t : Nat) (outcome : Except (Raised ε) α) (k : Nat) (p : Point ε)
    (rest : List (Frame ε)) : Option (World α ε) :=
  match p with
  | .enter =>
    some (if w.is_done k then w.doReturns wraps t k rest none
    else w.setStack t (⟨k, .acquire⟩ :: rest))
  | .acquire =>
    match w.mu with
    | none => some ({ w with mu := some t }.setStack t (⟨k, .recheck⟩ :: rest))
    | some _ => none
  | .recheck =>
    some (if w.is_done k then w.setStack t (⟨k, .leave none⟩ :: rest)
    else { w with runs := Function.update w.runs k (w.runs k + 1) }.setStack t
      (⟨k, .running⟩ :: rest))
  | .running =>
    some ((w.record wraps k outcome).setStack t (⟨k, .finish (raisedOf outcome)⟩ :: rest))
  | .finish raised =>
    some ({ w with is_done := Function.update w.is_done k true }.setStack t
      (⟨k, .leave raised⟩ :: rest))
  | .leave raised => some ({ w with mu := none }.doReturns wraps t k rest raised)
  | .readException =>
    match w.exception k with
    | some e => some (w.answer t k rest (.error (.exception e)))
    | none => some (w.setStack t (⟨k, .readResult⟩ :: rest))
  | .readResult => some (w.answer t k rest (.ok (w.result k)))

def step (w : World α ε) (a : Action α ε) : Option (World α ε) :=
  match a with
  | .call t k =>
    match w.frames t with
    | [] => some (w.setStack t [⟨k, .enter⟩])
    | ⟨j, .running⟩ :: rest => some (w.setStack t (⟨k, .enter⟩ :: ⟨j, .running⟩ :: rest))
    | _ => none
  | .move t outcome =>
    match w.frames t with
    | [] => none
    | ⟨k, p⟩ :: rest => move wraps w t outcome k p rest

end

/-! ## Exactly once, and apart -/

/-- An instance runs at most one function, and where a call of `do` has returned, it has
run one to its end. -/
structure OnceEach (w : World α ε) : Prop where
  once : ∀ k, w.runs k ≤ 1
  before : ∀ k ∈ w.returned, w.runs k = 1 ∧ ∀ t, ⟨k, .running⟩ ∉ w.frames t

/-- No call waits for the lock while a function of another instance runs. -/
def Independent (w : World α ε) : Prop :=
  ∀ t t' k k', ⟨k, .acquire⟩ ∈ w.frames t → ⟨k', .running⟩ ∈ w.frames t' → k = k'

/-- The call has found the instance done or has its function behind it: it neither waits
for the lock nor runs a function any more. -/
def Settled (w : World α ε) (f : Frame ε) : Prop :=
  match f.point with
  | .enter | .recheck => w.is_done f.once = true
  | .acquire | .running => False
  | .finish _ | .leave _ | .readException | .readResult => True

/-- A call for an instance that is not done begins only when the calls for other
instances are settled. -/
def BeginsApart (w : World α ε) (a : Action α ε) : Prop :=
  match a with
  | .call _ k => w.is_done k = true ∨ ∀ t, ∀ f ∈ w.frames t, f.once ≠ k → Settled w f
  | .move _ _ => True

/-- No call has begun. -/
structure Initial (w : World α ε) : Prop where
  is_done : ∀ k, w.is_done k = false
  mu : w.mu = none
  frames : ∀ t, w.frames t = []
  runs : ∀ k, w.runs k = 0
  returned : w.returned = []

/-! ## What holds in every run -/

/-- Inside `with self._mu`. -/
def Frame.inside (f : Frame ε) : Bool :=
  match f.point with
  | .recheck | .running | .finish _ | .leave _ => true
  | _ => false

/-- What is known about the instance at a point. -/
def Frame.Fits (is_done : Nat → Bool) (runs : Nat → Nat) (f : Frame ε) : Prop :=
  match f.point with
  | .running | .finish _ => is_done f.once = false ∧ runs f.once = 1
  | .leave _ | .readException | .readResult => is_done f.once = true
  | _ => True

/-- The function of the instance is running or about to be marked as done. -/
def Frame.Busy (k : Nat) (f : Frame ε) : Prop :=
  f.once = k ∧ (f.point = .running ∨ ∃ r, f.point = .finish r)

structure Invariant (w : World α ε) : Prop where
  owner : ∀ t, (w.frames t).countP Frame.inside = if w.mu = some t then 1 else 0
  fits : ∀ t, ∀ f ∈ w.frames t, f.Fits w.is_done w.runs
  done : ∀ k, w.is_done k = true → w.runs k = 1
  started : ∀ k, w.is_done k = false → w.runs k = 0 ∨ ∃ t, ∃ f ∈ w.frames t, f.Busy k
  returned : ∀ k ∈ w.returned, w.is_done k = true

variable {wraps : Nat → Bool} {w w' : World α ε} {t k : Nat} {f g : Frame ε}
  {rest l : List (Frame ε)}

theorem initial_invariant (h : Initial w) : Invariant w := by
  constructor
  · simp [h.frames, h.mu]
  · simp [h.frames]
  · simp [h.is_done]
  · exact fun k _ => .inl (h.runs k)
  · simp [h.returned]

theorem Invariant.onceEach (h : Invariant w) : OnceEach w := by
  constructor
  · intro k
    cases hd : w.is_done k with
    | true => exact Nat.le_of_eq (h.done k hd)
    | false =>
      rcases h.started k hd with h0 | ⟨t, f, hf, rfl, hp⟩
      · omega
      · have hfit := h.fits t f hf
        rcases hp with hp | ⟨r, hp⟩
        · rw [Frame.Fits, hp] at hfit
          exact Nat.le_of_eq hfit.2
        · rw [Frame.Fits, hp] at hfit
          exact Nat.le_of_eq hfit.2
  · intro k hk
    refine ⟨h.done k (h.returned k hk), fun t ht => ?_⟩
    have hfit := (h.fits t _ ht).1
    rw [h.returned k hk] at hfit
    cases hfit

/-- There is one call inside the lock. -/
theorem Invariant.unique (h : Invariant w) (hs : w.frames t = f :: rest) (hf : f.inside = true)
    {t' : Nat} (hg : g ∈ w.frames t') (hi : g.inside = true) : t' = t ∧ g ∉ rest := by
  have hheld : ∀ {t f}, f ∈ w.frames t → f.inside = true → w.mu = some t := by
    intro t f hf hi
    by_contra hmu
    have hown := h.owner t
    rw [if_neg hmu, List.countP_eq_zero] at hown
    exact hown f hf hi
  have hmu : w.mu = some t := hheld (by simp [hs]) hf
  have hmu' := hheld hg hi
  rw [hmu] at hmu'
  refine ⟨(Option.some.inj hmu').symm, fun hmem => ?_⟩
  have hown := h.owner t
  have hpos : 0 < rest.countP Frame.inside := List.countP_pos_iff.mpr ⟨g, hmem, hi⟩
  rw [if_pos hmu, hs, List.countP_cons_of_pos hf] at hown
  omega

section Frames

theorem frames_setStack : (w.setStack t l).frames = Function.update w.frames t l := rfl

/-- The lock after a step of thread `t`: as before, taken or released. -/
inductive LockStep (w w' : World α ε) (t : Nat) (l : List (Frame ε)) : Prop
  | same (hmu : w'.mu = w.mu)
      (hcount : l.countP Frame.inside = (w.frames t).countP Frame.inside) : LockStep w w' t l
  | taken (hfree : w.mu = none) (hmu : w'.mu = some t) (hcount : l.countP Frame.inside = 1) :
      LockStep w w' t l
  | released (hheld : w.mu = some t) (hmu : w'.mu = none) (hcount : l.countP Frame.inside = 0) :
      LockStep w w' t l

theorem Invariant.owner_step (h : Invariant w) (hframes : w'.frames = Function.update w.frames t l)
    (hlock : LockStep w w' t l) (t' : Nat) :
    (w'.frames t').countP Frame.inside = if w'.mu = some t' then 1 else 0 := by
  have hown := h.owner t'
  by_cases ht : t' = t
  · subst ht
    rw [hframes, Function.update_self]
    cases hlock with
    | same hmu hcount => rw [hcount, hown, hmu]
    | taken _ hmu hcount => simp [hmu, hcount]
    | released _ hmu hcount => simp [hmu, hcount]
  · rw [hframes, Function.update_of_ne ht, hown]
    cases hlock with
    | same hmu _ => rw [hmu]
    | taken hfree hmu _ => simp [hfree, hmu, Ne.symm ht]
    | released hheld hmu _ => simp [hheld, hmu, Ne.symm ht]

/-- A step of thread `t` that replaces its stack by `l`. -/
theorem Invariant.advance (h : Invariant w) (hframes : w'.frames = Function.update w.frames t l)
    (hlock : LockStep w w' t l) (hfits : ∀ g ∈ l, g.Fits w'.is_done w'.runs)
    (hothers : ∀ t' ≠ t, ∀ g ∈ w.frames t', g.Fits w'.is_done w'.runs)
    (hdone : ∀ k, w'.is_done k = true → w'.runs k = 1)
    (hstarted : ∀ k, w'.is_done k = false →
      w.is_done k = false ∧ (w'.runs k = w.runs k ∨ ∃ g ∈ l, g.Busy k))
    (hkeep : ∀ k, w'.is_done k = false → ∀ g ∈ w.frames t, g.Busy k → ∃ g' ∈ l, g'.Busy k)
    (hreturned : ∀ k ∈ w'.returned, w'.is_done k = true) : Invariant w' := by
  have hself : w'.frames t = l := by rw [hframes, Function.update_self]
  have hother : ∀ t' ≠ t, w'.frames t' = w.frames t' := by
    intro t' ht
    rw [hframes, Function.update_of_ne ht]
  refine ⟨h.owner_step hframes hlock, fun t' => ?_, hdone, fun k hk => ?_, hreturned⟩
  · by_cases ht : t' = t
    · rw [ht, hself]
      exact hfits
    · rw [hother t' ht]
      exact hothers t' ht
  · obtain ⟨hk', hruns | ⟨g, hg, hb⟩⟩ := hstarted k hk
    · rw [hruns]
      refine (h.started k hk').imp_right ?_
      rintro ⟨t', f, hf, hb⟩
      by_cases ht : t' = t
      · subst ht
        obtain ⟨g, hg, hb'⟩ := hkeep k hk f hf hb
        exact ⟨t', g, by rw [hself]; exact hg, hb'⟩
      · exact ⟨t', f, by rw [hother t' ht]; exact hf, hb⟩
    · exact .inr ⟨t, g, by rw [hself]; exact hg, hb⟩

/-- Nothing becomes done and no function begins. -/
theorem Invariant.goto (h : Invariant w) (hframes : w'.frames = Function.update w.frames t l)
    (hlock : LockStep w w' t l) (hdone : w'.is_done = w.is_done) (hruns : w'.runs = w.runs)
    (hfits : ∀ g ∈ l, g.Fits w.is_done w.runs)
    (hkeep : ∀ k, ∀ g ∈ w.frames t, g.Busy k → ∃ g' ∈ l, g'.Busy k)
    (hreturned : ∀ k ∈ w'.returned, w.is_done k = true) : Invariant w' := by
  rw [← hdone] at hreturned
  refine h.advance hframes hlock ?_ ?_ ?_ ?_ (fun k _ => hkeep k) hreturned
  · rw [hdone, hruns]
    exact hfits
  · rw [hdone, hruns]
    exact fun t' _ => h.fits t'
  · rw [hdone, hruns]
    exact h.done
  · rw [hdone, hruns]
    exact fun k hk => ⟨hk, .inl rfl⟩

end Frames

/-- Only the frame on top is replaced, and it is not the one of a function. -/
theorem keep_of_top (hs : w.frames t = f :: rest) (hf : ∀ k, ¬f.Busy k) (hl : ∀ g ∈ rest, g ∈ l)
    (k : Nat) : ∀ g ∈ w.frames t, g.Busy k → ∃ g' ∈ l, g'.Busy k := by
  intro g hg hb
  rw [hs] at hg
  rcases List.mem_cons.mp hg with rfl | hg
  · exact absurd hb (hf k)
  · exact ⟨g, hl g hg, hb⟩

theorem doReturns_eq (wraps : Nat → Bool) (w : World α ε) (t k : Nat) (rest : List (Frame ε))
    (raised : Option (Raised ε)) : ∃ l answers, (l = rest ∨ l = ⟨k, .readException⟩ :: rest) ∧
      w.doReturns wraps t k rest raised =
        { w with frames := Function.update w.frames t l, returned := w.returned ++ [k],
                 answers := answers } := by
  unfold World.doReturns
  cases wraps k with
  | false => exact ⟨rest, w.answers, .inl rfl, rfl⟩
  | true =>
    cases raised with
    | none => exact ⟨_, w.answers, .inr rfl, rfl⟩
    | some e => exact ⟨rest, _, .inl rfl, rfl⟩

/-- `do` returns for an instance that is done. -/
theorem returns_invariant (h : Invariant w) (hs : w.frames t = f :: rest) {mu : Option Nat}
    {raised : Option (Raised ε)} (hbusy : ∀ j, ¬f.Busy j) (hdone : w.is_done k = true)
    (hlock : ∀ (w' : World α ε) l, w'.mu = mu →
      l.countP Frame.inside = rest.countP Frame.inside → LockStep w w' t l) :
    Invariant ({ w with mu := mu }.doReturns wraps t k rest raised) := by
  obtain ⟨l, answers, hl, heq⟩ := doReturns_eq wraps { w with mu := mu } t k rest raised
  have hrest : ∀ g ∈ rest, g.Fits w.is_done w.runs := fun g hg => h.fits t g (by simp [hs, hg])
  rw [heq]
  refine h.goto rfl (hlock _ _ rfl ?_) rfl rfl ?_ (keep_of_top hs hbusy ?_) ?_
  · rcases hl with rfl | rfl
    · rfl
    · simp [Frame.inside]
  · rcases hl with rfl | rfl
    · exact hrest
    · exact List.forall_mem_cons.mpr ⟨hdone, hrest⟩
  · rcases hl with rfl | rfl
    · exact fun g hg => hg
    · exact fun g hg => List.mem_cons_of_mem _ hg
  · intro j hj
    rcases List.mem_append.mp hj with hj | hj
    · exact h.returned j hj
    · rw [List.mem_singleton.mp hj]
      exact hdone

/-- The test under the lock: where the instance is not done, none of its functions has
begun. -/
theorem unrun_of_recheck (h : Invariant w) (hs : w.frames t = ⟨k, .recheck⟩ :: rest)
    (hd : w.is_done k = false) : w.runs k = 0 := by
  refine (h.started k hd).resolve_right ?_
  rintro ⟨t', g, hg, -, hp⟩
  have hi : g.inside = true := by
    rcases hp with hp | ⟨r, hp⟩ <;> simp [Frame.inside, hp]
  obtain ⟨rfl, hnot⟩ := h.unique hs rfl hg hi
  rw [hs] at hg
  rcases List.mem_cons.mp hg with rfl | hg
  · rcases hp with hp | ⟨r, hp⟩ <;> cases hp
  · exact hnot hg

/-- What a call outside the part that one step is about knows stays true. -/
theorem Frame.Fits.mono {is_done is_done' : Nat → Bool} {runs runs' : Nat → Nat}
    (h : g.Fits is_done runs) (hdone : ∀ k, is_done k = true → is_done' k = true)
    (hbusy : ∀ k, g.Busy k → is_done' k = is_done k ∧ runs' k = runs k) :
    g.Fits is_done' runs' := by
  obtain ⟨k, p⟩ := g
  cases p with
  | running =>
    obtain ⟨hd, hr⟩ := hbusy k ⟨rfl, .inl rfl⟩
    exact ⟨hd.trans h.1, hr.trans h.2⟩
  | finish r =>
    obtain ⟨hd, hr⟩ := hbusy k ⟨rfl, .inr ⟨r, rfl⟩⟩
    exact ⟨hd.trans h.1, hr.trans h.2⟩
  | enter => trivial
  | acquire => trivial
  | recheck => trivial
  | leave r => exact hdone k h
  | readException => exact hdone k h
  | readResult => exact hdone k h

theorem inside_of_busy (h : g.Busy k) : g.inside = true := by
  obtain ⟨-, hp | ⟨r, hp⟩⟩ := h <;> simp [Frame.inside, hp]

/-- While a call is inside the lock, no other call has a function. -/
theorem Invariant.not_busy (h : Invariant w) (hs : w.frames t = f :: rest) (hf : f.inside = true) :
    (∀ g ∈ rest, ∀ k, ¬g.Busy k) ∧ ∀ t' ≠ t, ∀ g ∈ w.frames t', ∀ k, ¬g.Busy k := by
  constructor
  · intro g hg k hb
    have hmem : g ∈ w.frames t := by simp [hs, hg]
    exact (h.unique hs hf hmem (inside_of_busy hb)).2 hg
  · intro t' ht g hg k hb
    exact ht (h.unique hs hf hg (inside_of_busy hb)).1

theorem enter_invariant (h : Invariant w) (hs : w.frames t = ⟨k, .enter⟩ :: rest) :
    Invariant (if w.is_done k then w.doReturns wraps t k rest none
      else w.setStack t (⟨k, .acquire⟩ :: rest)) := by
  have hbusy : ∀ j, ¬(⟨k, .enter⟩ : Frame ε).Busy j := by simp [Frame.Busy]
  split
  · rename_i hd
    show Invariant ({ w with mu := w.mu }.doReturns wraps t k rest none)
    refine returns_invariant h hs hbusy hd fun w' l hmu hl => .same hmu ?_
    simp [hl, hs, Frame.inside]
  · refine h.goto rfl (.same rfl (by simp [hs, Frame.inside])) rfl rfl ?_
      (keep_of_top hs hbusy fun g hg => List.mem_cons_of_mem _ hg) h.returned
    exact List.forall_mem_cons.mpr ⟨trivial, fun g hg => h.fits t g (by simp [hs, hg])⟩

theorem run_invariant (h : Invariant w) (hs : w.frames t = ⟨k, .recheck⟩ :: rest)
    (hd : w.is_done k = false) :
    Invariant ({ w with runs := Function.update w.runs k (w.runs k + 1) }.setStack t
      (⟨k, .running⟩ :: rest)) := by
  have hruns := unrun_of_recheck h hs hd
  obtain ⟨hrest, hothers⟩ := h.not_busy hs rfl
  refine h.advance rfl (.same rfl ?_) ?_ ?_ ?_ ?_ ?_ h.returned
  · simp [hs, List.countP_cons, Frame.inside]
  · refine List.forall_mem_cons.mpr ⟨⟨hd, by simp [World.setStack, hruns]⟩, fun g hg => ?_⟩
    exact (h.fits t g (by simp [hs, hg])).mono (fun _ => id) fun j hb => absurd hb (hrest g hg j)
  · intro t' ht g hg
    exact (h.fits t' g hg).mono (fun _ => id) fun j hb => absurd hb (hothers t' ht g hg j)
  · intro j hj
    have hne : j ≠ k := by
      rintro rfl
      exact absurd (hd.symm.trans hj) (by simp)
    simpa [World.setStack, hne] using h.done j hj
  · intro j hj
    refine ⟨hj, ?_⟩
    by_cases hk : j = k
    · exact .inr ⟨⟨k, .running⟩, by simp, hk.symm, .inl rfl⟩
    · exact .inl (by simp [World.setStack, hk])
  · exact fun j _ => keep_of_top hs (by simp [Frame.Busy])
      (fun g hg => List.mem_cons_of_mem _ hg) j

theorem record_eq (wraps : Nat → Bool) (w : World α ε) (k : Nat)
    (outcome : Except (Raised ε) α) : ∃ result exception,
      w.record wraps k outcome = { w with result := result, exception := exception } := by
  unfold World.record
  split
  · split
    · exact ⟨_, w.exception, rfl⟩
    · exact ⟨w.result, _, rfl⟩
    · exact ⟨w.result, w.exception, rfl⟩
  · exact ⟨w.result, w.exception, rfl⟩

/-- The function ends. -/
theorem record_invariant (h : Invariant w) (hs : w.frames t = ⟨k, .running⟩ :: rest)
    (outcome : Except (Raised ε) α) :
    Invariant ((w.record wraps k outcome).setStack t
      (⟨k, .finish (raisedOf outcome)⟩ :: rest)) := by
  obtain ⟨result, exception, heq⟩ := record_eq wraps w k outcome
  have hfit := h.fits t ⟨k, .running⟩ (by simp [hs])
  rw [heq]
  refine h.goto rfl (.same rfl (by simp [hs, List.countP_cons, Frame.inside])) rfl rfl ?_ ?_ h.returned
  · exact List.forall_mem_cons.mpr ⟨hfit, fun g hg => h.fits t g (by simp [hs, hg])⟩
  · intro j g hg hb
    rw [hs] at hg
    rcases List.mem_cons.mp hg with rfl | hg
    · exact ⟨⟨k, .finish (raisedOf outcome)⟩, by simp, hb.1, .inr ⟨_, rfl⟩⟩
    · exact ⟨g, List.mem_cons_of_mem _ hg, hb⟩

/-- The `finally` block of `do`. -/
theorem finish_invariant (h : Invariant w) {raised : Option (Raised ε)}
    (hs : w.frames t = ⟨k, .finish raised⟩ :: rest) :
    Invariant ({ w with is_done := Function.update w.is_done k true }.setStack t
      (⟨k, .leave raised⟩ :: rest)) := by
  obtain ⟨hd, hruns⟩ := h.fits t ⟨k, .finish raised⟩ (by simp [hs])
  obtain ⟨hrest, hothers⟩ := h.not_busy hs rfl
  have hmono : ∀ j, w.is_done j = true → Function.update w.is_done k true j = true := by
    intro j hj
    by_cases hk : j = k
    · simp [hk]
    · simpa [hk] using hj
  have hne : ∀ j, Function.update w.is_done k true j = false → j ≠ k := by
    rintro j hj rfl
    simp at hj
  refine h.advance rfl (.same rfl ?_) ?_ ?_ ?_ ?_ ?_ fun j hj => hmono j (h.returned j hj)
  · simp [hs, List.countP_cons, Frame.inside]
  · refine List.forall_mem_cons.mpr ⟨by simp [Frame.Fits, World.setStack], fun g hg => ?_⟩
    exact (h.fits t g (by simp [hs, hg])).mono hmono fun j hb => absurd hb (hrest g hg j)
  · intro t' ht g hg
    exact (h.fits t' g hg).mono hmono fun j hb => absurd hb (hothers t' ht g hg j)
  · intro j hj
    by_cases hk : j = k
    · exact hk ▸ hruns
    · exact h.done j (by simpa [World.setStack, hk] using hj)
  · intro j hj
    have hk := hne j hj
    exact ⟨by simpa [World.setStack, hk] using hj, .inl rfl⟩
  · intro j hj g hg hb
    rw [hs] at hg
    rcases List.mem_cons.mp hg with rfl | hg
    · exact absurd hb.1.symm (hne j hj)
    · exact ⟨g, List.mem_cons_of_mem _ hg, hb⟩

/-- The wrapper reads a variable and ends, or goes on. -/
theorem read_invariant (h : Invariant w) (hs : w.frames t = f :: rest) (hf : f.inside = false)
    (hbusy : ∀ j, ¬f.Busy j) (hl : l = rest ∨ l = ⟨k, .readResult⟩ :: rest)
    (hdone : w.is_done k = true) (answers : List (Nat × Except (Raised ε) (Option α))) :
    Invariant { w with frames := Function.update w.frames t l, answers := answers } := by
  have hrest : ∀ g ∈ rest, g.Fits w.is_done w.runs := fun g hg => h.fits t g (by simp [hs, hg])
  refine h.goto rfl (.same rfl ?_) rfl rfl ?_ (keep_of_top hs hbusy ?_) h.returned
  · have hnew : Frame.inside (⟨k, .readResult⟩ : Frame ε) = false := rfl
    rcases hl with rfl | rfl <;> simp [hs, hf, hnew]
  · rcases hl with rfl | rfl
    · exact hrest
    · exact List.forall_mem_cons.mpr ⟨hdone, hrest⟩
  · rcases hl with rfl | rfl
    · exact fun g hg => hg
    · exact fun g hg => List.mem_cons_of_mem _ hg

theorem move_invariant (h : Invariant w) {p : Point ε} {outcome : Except (Raised ε) α}
    (hs : w.frames t = ⟨k, p⟩ :: rest) (hm : move wraps w t outcome k p rest = some w') :
    Invariant w' := by
  have hfit := h.fits t ⟨k, p⟩ (by simp [hs])
  have hrest : ∀ g ∈ rest, g.Fits w.is_done w.runs := fun g hg => h.fits t g (by simp [hs, hg])
  have hcons : ∀ g ∈ rest, ∀ f : Frame ε, g ∈ f :: rest := fun g hg f => List.mem_cons_of_mem f hg
  have hown := h.owner t
  cases p with
  | enter =>
    cases hm
    exact enter_invariant h hs
  | acquire =>
    simp only [move] at hm
    split at hm
    · rename_i hmu
      cases hm
      simp only [hmu, hs, reduceCtorEq, if_false] at hown
      refine h.goto rfl (.taken hmu rfl ?_) rfl rfl ?_
        (keep_of_top hs (by simp [Frame.Busy]) fun g hg => hcons g hg _) h.returned
      · simpa [List.countP_cons, Frame.inside] using hown
      · exact List.forall_mem_cons.mpr ⟨trivial, hrest⟩
    · cases hm
  | recheck =>
    cases hm
    split
    · rename_i hd
      refine h.goto rfl (.same rfl (by simp [hs, List.countP_cons, Frame.inside])) rfl rfl ?_
        (keep_of_top hs (by simp [Frame.Busy]) fun g hg => hcons g hg _) h.returned
      exact List.forall_mem_cons.mpr ⟨hd, hrest⟩
    · rename_i hd
      exact run_invariant h hs (by simpa using hd)
  | running =>
    cases hm
    exact record_invariant h hs outcome
  | finish raised =>
    cases hm
    exact finish_invariant h hs
  | leave raised =>
    cases hm
    refine returns_invariant h hs (by simp [Frame.Busy]) hfit fun w' l hmu hl => ?_
    have hheld : w.mu = some t := by
      by_contra hne
      rw [if_neg hne, hs, List.countP_cons_of_pos rfl] at hown
      omega
    refine .released hheld hmu ?_
    rw [if_pos hheld, hs, List.countP_cons_of_pos rfl] at hown
    omega
  | readException =>
    simp only [move] at hm
    split at hm
    · cases hm
      exact read_invariant h hs rfl (by simp [Frame.Busy]) (.inl rfl) hfit _
    · cases hm
      exact read_invariant h hs rfl (by simp [Frame.Busy]) (.inr rfl) hfit _
  | readResult =>
    cases hm
    exact read_invariant h hs rfl (by simp [Frame.Busy]) (.inl rfl) hfit _

theorem call_invariant (h : Invariant w) (t k : Nat) :
    Invariant (w.setStack t (⟨k, .enter⟩ :: w.frames t)) := by
  refine h.goto rfl (.same rfl (by simp [Frame.inside])) rfl rfl ?_ ?_ h.returned
  · exact List.forall_mem_cons.mpr ⟨trivial, h.fits t⟩
  · exact fun j g hg hb => ⟨g, List.mem_cons_of_mem _ hg, hb⟩

/-- What a step does: a thread calls, or its innermost call goes on. -/
theorem step_cases {a : Action α ε} (hs : step wraps w a = some w') :
    (∃ t k, a = .call t k ∧ w' = w.setStack t (⟨k, .enter⟩ :: w.frames t)) ∨
    ∃ t outcome k p rest, a = .move t outcome ∧ w.frames t = ⟨k, p⟩ :: rest ∧
      move wraps w t outcome k p rest = some w' := by
  cases a with
  | call t k =>
    refine .inl ⟨t, k, rfl, ?_⟩
    simp only [step] at hs
    split at hs
    · rename_i hstack
      rw [hstack]
      exact (Option.some.inj hs).symm
    · rename_i hstack
      rw [hstack]
      exact (Option.some.inj hs).symm
    · cases hs
  | move t outcome =>
    simp only [step] at hs
    split at hs
    · cases hs
    · rename_i k p rest hstack
      exact .inr ⟨t, outcome, k, p, rest, rfl, hstack, hs⟩

theorem step_invariant {a : Action α ε} (h : Invariant w) (hs : step wraps w a = some w') :
    Invariant w' := by
  obtain ⟨t, k, -, rfl⟩ | ⟨t, outcome, k, p, rest, -, hstack, hm⟩ := step_cases hs
  · exact call_invariant h t k
  · exact move_invariant h hstack hm

/-- **Exactly once.** Each instance runs at most one function, and runs it before any of
its calls returns, in every run. -/
theorem always_onceEach {w₀ : World α ε} {es : List (Event (World α ε) (Action α ε))}
    (h₀ : Initial w₀) (h : Run (step wraps) w₀ es w) : Always OnceEach w₀ es := by
  have hinv := h.keeps_always (initial_invariant h₀) fun _ _ _ hi hs => step_invariant hi hs
  exact ⟨hinv.1.onceEach, fun e he => (hinv.2 e he).onceEach⟩

/-! ## Independence -/

/-- Of two calls for different instances, one is settled. -/
def Apart (w : World α ε) : Prop :=
  ∀ t t' f g, f ∈ w.frames t → g ∈ w.frames t' → f.once ≠ g.once → Settled w f ∨ Settled w g

theorem Apart.independent (h : Apart w) : Independent w := by
  intro t t' k k' hf hg
  by_contra hne
  rcases h t t' _ _ hf hg hne with h | h
  · exact h
  · exact h

theorem Settled.mono (h : Settled w f) (hd : ∀ k, w.is_done k = true → w'.is_done k = true) :
    Settled w' f := by
  obtain ⟨k, p⟩ := f
  cases p with
  | enter => exact hd k h
  | recheck => exact hd k h
  | _ => exact h

/-- The stack `l` in place of a call for `k` in state `w`: what is below that call, and
perhaps the same call, which is still settled if it was. -/
def Continues (w w' : World α ε) (k : Nat) (p : Point ε) (rest l : List (Frame ε)) : Prop :=
  ∀ g ∈ l, g ∈ rest ∨ g.once = k ∧ (Settled w ⟨k, p⟩ → Settled w' g)

theorem continues_rest {p : Point ε} : Continues w w' k p rest rest := fun _ hg => .inl hg

theorem continues_cons {p q : Point ε} (h : Settled w ⟨k, p⟩ → Settled w' ⟨k, q⟩) :
    Continues w w' k p rest (⟨k, q⟩ :: rest) :=
  List.forall_mem_cons.mpr ⟨.inr ⟨rfl, h⟩, fun _ hg => .inl hg⟩

theorem continues_doReturns {p : Point ε} {mu : Option Nat} {raised : Option (Raised ε)} :
    ∃ l, ({ w with mu := mu }.doReturns wraps t k rest raised).frames =
        Function.update w.frames t l ∧
      Continues w ({ w with mu := mu }.doReturns wraps t k rest raised) k p rest l := by
  obtain ⟨l, answers, hl, heq⟩ := doReturns_eq wraps { w with mu := mu } t k rest raised
  rw [heq]
  refine ⟨l, rfl, ?_⟩
  rcases hl with rfl | rfl
  · exact continues_rest
  · exact continues_cons fun _ => trivial

theorem doReturns_is_done (raised : Option (Raised ε)) :
    (w.doReturns wraps t k rest raised).is_done = w.is_done := by
  obtain ⟨l, answers, -, heq⟩ := doReturns_eq wraps w t k rest raised
  rw [heq]

theorem move_continues {p : Point ε} {outcome : Except (Raised ε) α}
    (hm : move wraps w t outcome k p rest = some w') :
    ∃ l, w'.frames = Function.update w.frames t l ∧ Continues w w' k p rest l := by
  cases p with
  | enter =>
    cases hm
    split
    · exact @continues_doReturns _ _ wraps w t k rest .enter w.mu none
    · rename_i hd
      exact ⟨_, rfl, continues_cons fun h => absurd h hd⟩
  | acquire =>
    simp only [move] at hm
    split at hm
    · cases hm
      exact ⟨_, rfl, continues_cons False.elim⟩
    · cases hm
  | recheck =>
    cases hm
    split
    · exact ⟨_, rfl, continues_cons fun _ => trivial⟩
    · rename_i hd
      exact ⟨_, rfl, continues_cons fun h => absurd h hd⟩
  | running =>
    cases hm
    obtain ⟨result, exception, heq⟩ := record_eq wraps w k outcome
    rw [heq]
    exact ⟨_, rfl, continues_cons fun _ => trivial⟩
  | finish raised =>
    cases hm
    exact ⟨_, rfl, continues_cons fun _ => trivial⟩
  | leave raised =>
    cases hm
    exact continues_doReturns
  | readException =>
    simp only [move] at hm
    split at hm
    · cases hm
      exact ⟨_, rfl, continues_rest⟩
    · cases hm
      exact ⟨_, rfl, continues_cons fun _ => trivial⟩
  | readResult =>
    cases hm
    exact ⟨_, rfl, continues_rest⟩

/-- An instance that is done stays so. -/
theorem move_is_done {p : Point ε} {outcome : Except (Raised ε) α}
    (hm : move wraps w t outcome k p rest = some w') {j : Nat} (hj : w.is_done j = true) :
    w'.is_done j = true := by
  cases p with
  | enter =>
    cases hm
    split
    · rw [doReturns_is_done]
      exact hj
    · exact hj
  | acquire =>
    simp only [move] at hm
    split at hm
    · cases hm
      exact hj
    · cases hm
  | recheck =>
    cases hm
    split <;> exact hj
  | running =>
    cases hm
    obtain ⟨result, exception, heq⟩ := record_eq wraps w k outcome
    rw [heq]
    exact hj
  | finish raised =>
    cases hm
    by_cases hk : j = k
    · simp [World.setStack, hk]
    · simpa [World.setStack, hk] using hj
  | leave raised =>
    cases hm
    rw [doReturns_is_done]
    exact hj
  | readException =>
    simp only [move] at hm
    split at hm <;> (cases hm; exact hj)
  | readResult =>
    cases hm
    exact hj

/-- A frame that a move leaves was there before, or continues the one that moved. -/
theorem mem_of_continues {p : Point ε} {t' : Nat} (hstack : w.frames t = ⟨k, p⟩ :: rest)
    (hl : w'.frames = Function.update w.frames t l) (hc : Continues w w' k p rest l)
    (hg : g ∈ w'.frames t') :
    g ∈ w.frames t' ∨ g.once = k ∧ (Settled w ⟨k, p⟩ → Settled w' g) := by
  rw [hl] at hg
  by_cases ht : t' = t
  · subst ht
    rw [Function.update_self] at hg
    refine (hc g hg).imp_left fun hmem => ?_
    rw [hstack]
    exact List.mem_cons_of_mem _ hmem
  · rw [Function.update_of_ne ht] at hg
    exact .inl hg

theorem move_apart (h : Apart w) {p : Point ε} {outcome : Except (Raised ε) α}
    (hstack : w.frames t = ⟨k, p⟩ :: rest) (hm : move wraps w t outcome k p rest = some w') :
    Apart w' := by
  obtain ⟨l, hl, hc⟩ := move_continues hm
  have hmono : ∀ {f}, Settled w f → Settled w' f := fun hf => hf.mono fun _ => move_is_done hm
  have htop : (⟨k, p⟩ : Frame ε) ∈ w.frames t := by simp [hstack]
  intro t₁ t₂ f g hf hg hne
  rcases mem_of_continues hstack hl hc hf with hf | ⟨hfk, hf⟩
  · rcases mem_of_continues hstack hl hc hg with hg | ⟨hgk, hg⟩
    · exact (h t₁ t₂ f g hf hg hne).imp hmono hmono
    · exact (h t₁ t f ⟨k, p⟩ hf htop (by rw [← hgk]; exact hne)).imp hmono hg
  · rcases mem_of_continues hstack hl hc hg with hg | ⟨hgk, -⟩
    · exact (h t t₂ ⟨k, p⟩ g htop hg (by rw [← hfk]; exact hne)).imp hf hmono
    · exact absurd (hfk.trans hgk.symm) hne

theorem call_apart (h : Apart w)
    (hok : w.is_done k = true ∨ ∀ t, ∀ f ∈ w.frames t, f.once ≠ k → Settled w f) :
    Apart (w.setStack t (⟨k, .enter⟩ :: w.frames t)) := by
  have hmem : ∀ {t' g}, g ∈ (w.setStack t (⟨k, .enter⟩ :: w.frames t)).frames t' →
      g ∈ w.frames t' ∨ g = ⟨k, .enter⟩ := by
    intro t' g hg
    by_cases ht : t' = t
    · subst ht
      rw [frames_setStack, Function.update_self] at hg
      exact (List.mem_cons.mp hg).symm
    · rw [frames_setStack, Function.update_of_ne ht] at hg
      exact .inl hg
  have hnew : ∀ t', ∀ g ∈ w.frames t', g.once ≠ k → Settled w ⟨k, .enter⟩ ∨ Settled w g := by
    intro t' g hg hne
    exact hok.imp id fun hall => hall t' g hg hne
  intro t₁ t₂ f g hf hg hne
  rcases hmem hf with hf | rfl
  · rcases hmem hg with hg | rfl
    · exact h t₁ t₂ f g hf hg hne
    · exact (hnew t₁ f hf hne).symm
  · rcases hmem hg with hg | rfl
    · exact hnew t₂ g hg hne.symm
    · exact absurd rfl hne

theorem step_apart {a : Action α ε} (h : Apart w) (hok : BeginsApart w a)
    (hs : step wraps w a = some w') : Apart w' := by
  obtain ⟨t, k, rfl, rfl⟩ | ⟨t, outcome, k, p, rest, -, hstack, hm⟩ := step_cases hs
  · exact call_apart h hok
  · exact move_apart h hstack hm

/-- **Independent instances.** In every run in which calls for instances that are not
done begin apart, no call waits for the lock while a function of another instance
runs, and each instance runs its function once. -/
theorem always_independent {w₀ : World α ε} {es : List (Event (World α ε) (Action α ε))}
    (h₀ : Initial w₀) (h : Run (step wraps) w₀ es w) (hok : Guarded BeginsApart es) :
    Always (fun w => OnceEach w ∧ Independent w) w₀ es := by
  have hinit : Apart w₀ := by
    intro t t' f g hf
    rw [h₀.frames t] at hf
    cases hf
  have hstep : ∀ (w : World α ε) a w', Apart w → BeginsApart w a → step wraps w a = some w' →
      Apart w' := fun _ _ _ hi hg hs => step_apart hi hg hs
  have hapart := h.always hinit hstep hok
  have honce := always_onceEach h₀ h
  exact ⟨⟨honce.1, hapart.1.independent⟩, fun e he => ⟨honce.2 e he, (hapart.2 e he).independent⟩⟩

/-! ## A run with two threads -/

def Action.thread : Action α ε → Nat
  | .call t _ | .move t _ => t

instance (w : World α ε) (f : Frame ε) : Decidable (Settled w f) :=
  match f with
  | ⟨k, .enter⟩ | ⟨k, .recheck⟩ => inferInstanceAs (Decidable (w.is_done k = true))
  | ⟨_, .acquire⟩ | ⟨_, .running⟩ => isFalse id
  | ⟨_, .finish _⟩ | ⟨_, .leave _⟩ | ⟨_, .readException⟩ | ⟨_, .readResult⟩ => isTrue trivial

/-- The guard, for `n` threads. -/
def BeginsApartBelow (n : Nat) (w : World α ε) (a : Action α ε) : Prop :=
  a.thread < n ∧
    match a with
    | .call _ k => w.is_done k = true ∨ ∀ t < n, ∀ f ∈ w.frames t, f.once ≠ k → Settled w f
    | .move _ _ => True

instance (n : Nat) (w : World α ε) (a : Action α ε) : Decidable (BeginsApartBelow n w a) :=
  match a with
  | .call _ k => inferInstanceAs (Decidable (_ ∧
      (w.is_done k = true ∨ ∀ t < n, ∀ f ∈ w.frames t, f.once ≠ k → Settled w f)))
  | .move _ _ => inferInstanceAs (Decidable (_ ∧ True))

/-- A step changes the stack of its own thread. -/
theorem step_frames {a : Action α ε} (hs : step wraps w a = some w') :
    ∃ l, w'.frames = Function.update w.frames a.thread l := by
  obtain ⟨t, k, rfl, rfl⟩ | ⟨t, outcome, k, p, rest, rfl, hstack, hm⟩ := step_cases hs
  · exact ⟨_, rfl⟩
  · obtain ⟨l, hl, -⟩ := move_continues hm
    exact ⟨l, hl⟩

/-- Where only `n` threads move, the guard is about them. -/
theorem guarded_of_below {w₀ : World α ε} {es : List (Event (World α ε) (Action α ε))} {n : Nat}
    (h₀ : Initial w₀) (h : Run (step wraps) w₀ es w) (hok : Guarded (BeginsApartBelow n) es) :
    Guarded BeginsApart es := by
  have hstep : ∀ (w : World α ε) a w', (∀ t, n ≤ t → w.frames t = []) → BeginsApartBelow n w a →
      step wraps w a = some w' → ∀ t, n ≤ t → w'.frames t = [] := by
    intro w a w' hidle hok hs t ht
    obtain ⟨l, hl⟩ := step_frames hs
    have hne : t ≠ a.thread := by
      have hlt := hok.1
      omega
    rw [hl, Function.update_of_ne hne]
    exact hidle t ht
  have hidle := h.always (fun t _ => h₀.frames t) hstep hok
  rintro ⟨w, a, w'⟩ he
  have hidle := h.pre_of_always hidle he
  have hok := (hok _ he).2
  cases a with
  | move t outcome => trivial
  | call t k =>
    refine hok.imp id fun hsettled t' f hf => ?_
    rcases Nat.lt_or_ge t' n with ht | ht
    · exact hsettled t' ht f hf
    · rw [hidle t' ht] at hf
      cases hf

def unused : World Nat Nat where
  is_done := fun _ => false
  mu := none
  result := fun _ => none
  exception := fun _ => none
  frames := fun _ => []
  runs := fun _ => 0
  returned := []
  answers := []

theorem unused_initial : Initial unused :=
  ⟨fun _ => rfl, rfl, fun _ => rfl, fun _ => rfl, rfl⟩

/-- Instance 0 belongs to `once_func`. Two threads call `do` of instance 1; when its
function has run, thread 0 calls the wrapper of instance 0, whose function calls `do` of
instance 1 again, and so does thread 1 meanwhile. -/
def callsApart : List (Action Nat Nat) :=
  .flatten [
    [.call 0 1, .call 1 1],
    .replicate 2 (.move 0 (.ok 4)),
    [.move 1 (.ok 4)],
    .replicate 4 (.move 0 (.ok 4)),
    [.move 1 (.ok 4), .call 0 0, .move 0 (.ok 5)],
    .replicate 2 (.move 1 (.ok 4)),
    .replicate 2 (.move 0 (.ok 5)),
    [.call 0 1, .call 1 1, .move 0 (.ok 5), .move 1 (.ok 5)],
    .replicate 5 (.move 0 (.ok 5))]

theorem callsApart_independent : ∃ es w, Run (step (· == 0)) unused es w ∧
    Always (fun w => OnceEach w ∧ Independent w) unused es ∧
    es.map Event.label = callsApart ∧ w.returned = [1, 1, 1, 1, 0] ∧
    w.answers = [(0, .ok (some 5))] := by
  obtain ⟨es, w, hr, hok, hl, hw⟩ := @exists_guarded_run _ _ (step (· == 0)) unused _
    (BeginsApartBelow 2) _ (fun w : World Nat Nat => (w.returned, w.answers)) callsApart
    ([1, 1, 1, 1, 0], [(0, .ok (some 5))]) rfl
  obtain ⟨hreturned, hanswers⟩ := Prod.mk.inj hw
  have hapart := guarded_of_below unused_initial hr hok
  exact ⟨es, w, hr, always_independent unused_initial hr hapart, hl, hreturned, hanswers⟩

/-- A function of instance 0 calls `do` of instance 1. -/
def nestedCall : List (Action Nat Nat) :=
  .call 0 0 :: List.replicate 3 (.move 0 (.ok 0)) ++ [.call 0 1, .move 0 (.ok 0)]

theorem nested_call_waits : ∃ es w, Run (step fun _ => false) unused es w ∧ ¬Independent w ∧
    ∀ outcome : Except (Raised Nat) Nat, step (fun _ => false) w (.move 0 outcome) = none := by
  obtain ⟨es, w, hr, hw⟩ := @exists_run_of_replay _ _ (step fun _ => false) unused _
    (fun w : World Nat Nat => (w.frames 0, w.mu)) nestedCall
    ([⟨1, .acquire⟩, ⟨0, .running⟩], some 0) rfl
  obtain ⟨hstack, hmu⟩ := Prod.mk.inj hw
  refine ⟨es, w, hr, fun h => ?_, fun outcome => ?_⟩
  · exact absurd (h 0 0 1 0 (by simp [hstack]) (by simp [hstack])) (by decide)
  · simp only [step, hstack, move, hmu]

end LocalStack.Utils.Once
