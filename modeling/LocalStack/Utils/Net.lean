import LocalStack.Lib.Runs
import LocalStack.Lib.TTLCache
import LocalStack.Lib.Text
import Mathlib.Data.Rat.Defs
import Mathlib.Algebra.Order.Ring.Unbundled.Rat

/-! `PortRange` of `utils/net.py`, with its subranges, which share its cache, and
`set_expiry` of `utils/collections.py`. The cache is a parameter. -/

namespace LocalStack.Utils.Net
open LocalStack.Text LocalStack.TTLCache LocalStack.Runs

structure Port where
  port : ℤ
  protocol : Str
  deriving DecidableEq, Repr

inductive IntOrPort
  | int (port : ℤ)
  | port (port : Port)
  deriving DecidableEq, Repr

def Port.wrap : IntOrPort → Port
  | .int port => ⟨port, "tcp".toList⟩
  | .port port => port

/-- `last` is the attribute `end`. -/
structure PortRange where
  start : ℤ
  last : ℤ
  deriving DecidableEq, Repr

/-- `DEFAULT_PORT_RESERVED_SECONDS`. -/
def defaultReserved : ℚ := 6

namespace PortRange

/-- `__len__`, which is negative where it raises. -/
def len (r : PortRange) : ℤ := r.last - r.start + 1

def as_range (r : PortRange) : List ℤ := (List.range r.len.toNat).map fun i : ℕ => r.start + (i : ℤ)

/-- `port in self.as_range()`. -/
def contains (r : PortRange) (port : ℤ) : Bool := r.start ≤ port && port ≤ r.last

/-- `None` where it raises: the bounds are outside of the range, or the length of what
they make is negative. -/
def subrange (r : PortRange) (start last : Option ℤ) : Option PortRange :=
  let start := start.getD r.start
  let last := last.getD r.last
  if start < r.start then none
  else if r.last < last then none
  else if (PortRange.mk start last).len < 0 then none
  else some ⟨start, last⟩

end PortRange

section
variable (C : Cache Port ℚ) (maxsize : ℕ)

/-- Whether there is a value for the port; the cache is used by it. -/
def is_port_reserved (now : ℚ) (cache : C.Carrier) (port : Port) : C.Carrier × Bool :=
  C.get now cache port

/-- `_TTLCache__getlink(key).expires = time + ttl`. -/
def set_expiry (now : ℚ) (cache : C.Carrier) (key : Port) (ttl : ℚ) : C.Carrier :=
  C.setExpires cache key (now + ttl)

/-- `if duration`. -/
def given : Option ℚ → Option ℚ
  | none => none
  | some d => if d = 0 then none else some d

/-- `None` where the port is not in the range. -/
def mark_reserved (r : PortRange) (now : ℚ) (cache : C.Carrier) (port : Port)
    (duration : Option ℚ) : Option C.Carrier :=
  if r.contains port.port then
    let cache := C.set maxsize defaultReserved now cache port
    match given duration with
    | none => some cache
    | some d => some (set_expiry C now cache port d)
  else none

/-- `None` where the port is reserved or in use. -/
def try_reserve_port (r : PortRange) (bindable : Port → Bool) (now : ℚ) (cache : C.Carrier)
    (port : Port) (duration : Option ℚ) : C.Carrier × Option ℤ :=
  match is_port_reserved C now cache port with
  | (cache, true) => (cache, none)
  | (cache, false) =>
    if bindable port then
      match mark_reserved C maxsize r now cache port duration with
      | some cache => (cache, some port.port)
      | none => (cache, none)
    else (cache, none)

/-- The loop over the range. -/
def reserveFirst (r : PortRange) (bindable : Port → Bool) (now : ℚ) (duration : Option ℚ) :
    List ℤ → C.Carrier → C.Carrier × Option ℤ
  | [], cache => (cache, none)
  | port :: ports, cache =>
    match try_reserve_port C maxsize r bindable now cache (Port.wrap (.int port)) duration with
    | (cache, some port) => (cache, some port)
    | (cache, none) => reserveFirst r bindable now duration ports cache

/-- `None` for the port where it raises. -/
def reserve_port (r : PortRange) (bindable : Port → Bool) (now : ℚ) (cache : C.Carrier)
    (port : Option IntOrPort) (duration : Option ℚ) : C.Carrier × Option ℤ :=
  match port with
  | some port =>
    if r.contains (Port.wrap port).port then
      try_reserve_port C maxsize r bindable now cache (Port.wrap port) duration
    else (cache, none)
  | none => reserveFirst C maxsize r bindable now duration r.as_range cache

end

/-! ## Histories -/

/-- `ranges` has the port range and what has been made of it, `cache` is what they share.
`reserved` has every reservation, with the time at which it expires. -/
structure World (C : Cache Port ℚ) where
  ranges : List PortRange
  cache : C.Carrier
  now : ℚ
  reserved : List (Port × ℚ)

/-- A call for the `i`-th range, or time goes on. `bindable` tells which ports can be bound
during the call. -/
inductive Action
  | subrange (i : ℕ) (start last : Option ℤ)
  | reserve_port (i : ℕ) (port : Option IntOrPort) (duration : Option ℚ)
      (bindable : Port → Bool)
  | mark_reserved (i : ℕ) (port : IntOrPort) (duration : Option ℚ)
  | tick (later : ℚ)

/-- When a reservation expires that is made now. -/
def expiry (now : ℚ) (duration : Option ℚ) : ℚ := now + (given duration).getD defaultReserved

/-- The pair that is reserved where `reserve_port` returns `n`. -/
def pairOf (port : Option IntOrPort) (n : ℤ) : Port :=
  match port with
  | some port => Port.wrap port
  | none => Port.wrap (.int n)

section
variable (C : Cache Port ℚ) (maxsize : ℕ)

def step (w : World C) : Action → Option (World C)
  | .subrange i start last =>
    w.ranges[i]?.map fun r =>
      match r.subrange start last with
      | some sub => { w with ranges := w.ranges ++ [sub] }
      | none => w
  | .reserve_port i port duration bindable =>
    w.ranges[i]?.map fun r =>
      match reserve_port C maxsize r bindable w.now w.cache port duration with
      | (cache, some n) =>
        { w with cache, reserved := w.reserved ++ [(pairOf port n, expiry w.now duration)] }
      | (cache, none) => { w with cache }
  | .mark_reserved i port duration =>
    w.ranges[i]?.map fun r =>
      match mark_reserved C maxsize r w.now w.cache (Port.wrap port) duration with
      | some cache =>
        { w with cache, reserved := w.reserved ++ [(Port.wrap port, expiry w.now duration)] }
      | none => w
  | .tick later => if w.now ≤ later then some { w with now := later } else none

/-- Until it expires, every reservation is seen. -/
def Held (w : World C) : Prop :=
  ∀ r ∈ w.reserved, w.now < r.2 → (is_port_reserved C w.now w.cache r.1).2 = true

/-- Where the action is a `reserve_port` that returns a port, no reservation of it is still
to expire. -/
def Fresh (w : World C) : Action → Prop
  | .reserve_port i port duration bindable =>
    ∀ r n, w.ranges[i]? = some r →
      (reserve_port C maxsize r bindable w.now w.cache port duration).2 = some n →
        ∀ p ∈ w.reserved, p.1 = pairOf port n → p.2 ≤ w.now
  | _ => True

/-- An entry of the port takes no other's place. -/
def roomy (cache : C.Carrier) (port : Port) : Bool :=
  (C.expires cache port).isSome || C.size cache < maxsize

/-- The port is neither reserved nor in use. -/
def free (bindable : Port → Bool) (now : ℚ) (cache : C.Carrier) (port : Port) : Bool :=
  !(is_port_reserved C now cache port).2 && bindable port

/-- The pair that a call would reserve, if there is one. -/
def candidate (r : PortRange) (bindable : Port → Bool) (now : ℚ) (cache : C.Carrier) :
    Option IntOrPort → Option Port
  | some port =>
    if r.contains (Port.wrap port).port && free C bindable now cache (Port.wrap port) then
      some (Port.wrap port)
    else none
  | none =>
    (r.as_range.map fun n => Port.wrap (.int n)).find? (free C bindable now cache)

/-- There is room for what is reserved, and no reservation is cut short. -/
def allowed (w : World C) : Action → Bool
  | .reserve_port i port _ bindable =>
    (w.ranges[i]?.bind fun r => candidate C r bindable w.now w.cache port).all
      (roomy C maxsize w.cache)
  | .mark_reserved i port duration =>
    w.ranges[i]?.all fun r =>
      !r.contains (Port.wrap port).port ||
        (roomy C maxsize w.cache (Port.wrap port) &&
          w.reserved.all fun p =>
            p.1 ≠ Port.wrap port || p.2 ≤ w.now || p.2 ≤ expiry w.now duration)
  | _ => true

end

/-! ## One call -/

variable {C : Cache Port ℚ} {maxsize : ℕ}

/-- The caches have the same entries. -/
structure SameEntries (c c' : C.Carrier) : Prop where
  expires : ∀ k, C.expires c' k = C.expires c k
  size : C.size c' = C.size c

theorem sameEntries_get (hC : C.Documented) (now : ℚ) (c : C.Carrier) (port : Port) :
    SameEntries c (is_port_reserved C now c port).1 :=
  ⟨hC.expires_get now c port, hC.size_get now c port⟩

theorem SameEntries.trans {c c' c'' : C.Carrier} (h : SameEntries c c')
    (h' : SameEntries c' c'') : SameEntries c c'' :=
  ⟨fun k => (h'.expires k).trans (h.expires k), h'.size.trans h.size⟩

theorem SameEntries.is_port_reserved_eq (hC : C.Documented) {c c' : C.Carrier}
    (h : SameEntries c c') (now : ℚ) (port : Port) :
    (is_port_reserved C now c' port).2 = (is_port_reserved C now c port).2 := by
  rw [Bool.eq_iff_iff]
  unfold is_port_reserved
  rw [hC.get_iff, hC.get_iff, h.expires]

theorem SameEntries.free_eq (hC : C.Documented) {c c' : C.Carrier} (h : SameEntries c c')
    (bindable : Port → Bool) (now : ℚ) :
    free C bindable now c' = free C bindable now c := by
  funext port
  rw [free, free, h.is_port_reserved_eq hC]

theorem SameEntries.roomy_eq {c c' : C.Carrier} (h : SameEntries c c') (port : Port) :
    roomy C maxsize c' port = roomy C maxsize c port := by
  rw [roomy, roomy, h.expires, h.size]

/-- What `mark_reserved` does where there is room. -/
theorem mark_reserved_spec (hC : C.Documented) (hmax : 0 < maxsize) {r : PortRange} {now : ℚ}
    {c c' : C.Carrier} {port : Port} {duration : Option ℚ}
    (h : mark_reserved C maxsize r now c port duration = some c')
    (hroom : roomy C maxsize c port = true) :
    C.expires c' port = some (expiry now duration) ∧
      ∀ k e, port ≠ k → C.expires c k = some e → now < e → C.expires c' k = some e := by
  simp only [roomy, Bool.or_eq_true, decide_eq_true_eq] at hroom
  have hself := hC.expires_set maxsize defaultReserved now c port hmax
  have hkeep : ∀ k e, port ≠ k → C.expires c k = some e → now < e →
      C.expires (C.set maxsize defaultReserved now c port) k = some e :=
    fun k e hk he hlt => hC.set_keeps maxsize defaultReserved now c port k e hk he hlt hroom
  unfold mark_reserved at h
  split_ifs at h
  cases hd : given duration with
  | none =>
    simp only [hd, Option.some.injEq] at h
    subst h
    refine ⟨?_, hkeep⟩
    rw [hself, expiry, hd, Option.getD_none]
  | some d =>
    simp only [hd, Option.some.injEq] at h
    subst h
    refine ⟨?_, fun k e hk he hlt => ?_⟩
    · rw [set_expiry, hC.setExpires_self _ _ _ (by rw [hself]; rfl), expiry, hd,
        Option.getD_some]
    · rw [set_expiry, hC.setExpires_ne _ _ _ _ hk, hkeep k e hk he hlt]

theorem exists_mark_reserved {r : PortRange} {port : Port} (h : r.contains port.port = true)
    (now : ℚ) (c : C.Carrier) (duration : Option ℚ) :
    ∃ c', mark_reserved C maxsize r now c port duration = some c' := by
  unfold mark_reserved
  rw [if_pos h]
  cases given duration with
  | none => exact ⟨_, rfl⟩
  | some d => exact ⟨_, rfl⟩

/-- A port of the range is reserved exactly where it is free. -/
theorem try_reserve_port_cases (hC : C.Documented) {r : PortRange} {bindable : Port → Bool}
    {now : ℚ} {c : C.Carrier} {port : Port} {duration : Option ℚ}
    (hr : r.contains port.port = true) :
    (free C bindable now c port = false ∧ ∃ c', SameEntries c c' ∧
      try_reserve_port C maxsize r bindable now c port duration = (c', none)) ∨
    (free C bindable now c port = true ∧ ∃ c₁ c', SameEntries c c₁ ∧
      mark_reserved C maxsize r now c₁ port duration = some c' ∧
      try_reserve_port C maxsize r bindable now c port duration = (c', some port.port)) := by
  have hsame := sameEntries_get hC now c port
  rcases hget : is_port_reserved C now c port with ⟨c₁, _ | _⟩
  · rw [hget] at hsame
    cases hb : bindable port with
    | false =>
      refine .inl ⟨by simp [free, hb], c₁, hsame, ?_⟩
      simp only [try_reserve_port, hget, hb, Bool.false_eq_true, ↓reduceIte]
    | true =>
      obtain ⟨c', hmark⟩ := @exists_mark_reserved C maxsize r port hr now c₁ duration
      refine .inr ⟨by simp [free, hget, hb], c₁, c', hsame, hmark, ?_⟩
      simp only [try_reserve_port, hget, hb, ↓reduceIte, hmark]
  · rw [hget] at hsame
    exact .inl ⟨by simp [free, hget], c₁, hsame, by simp only [try_reserve_port, hget]⟩

theorem reserveFirst_cases (hC : C.Documented) {r : PortRange} {bindable : Port → Bool}
    {now : ℚ} {duration : Option ℚ} {ports : List ℤ}
    (hports : ∀ n ∈ ports, r.contains n = true) (c : C.Carrier) :
    ((ports.map fun n => Port.wrap (.int n)).find? (free C bindable now c) = none ∧
      ∃ c', SameEntries c c' ∧
        reserveFirst C maxsize r bindable now duration ports c = (c', none)) ∨
    ∃ n c₁ c',
      (ports.map fun n => Port.wrap (.int n)).find? (free C bindable now c) =
        some (Port.wrap (.int n)) ∧ SameEntries c c₁ ∧
      mark_reserved C maxsize r now c₁ (Port.wrap (.int n)) duration = some c' ∧
      reserveFirst C maxsize r bindable now duration ports c = (c', some n) := by
  induction ports generalizing c with
  | nil => exact .inl ⟨rfl, c, ⟨fun _ => rfl, rfl⟩, rfl⟩
  | cons n ports ih =>
    obtain ⟨hn, hports⟩ := List.forall_mem_cons.mp hports
    rw [List.map_cons]
    rcases @try_reserve_port_cases C maxsize hC r bindable now c (Port.wrap (.int n)) duration hn
      with ⟨hfree, c₁, hsame, htry⟩ | ⟨hfree, c₁, c', hsame, hmark, htry⟩
    · rw [List.find?_cons_of_neg (by simp [hfree])]
      simp only [reserveFirst, htry]
      have hrest := ih hports c₁
      rw [hsame.free_eq hC] at hrest
      rcases hrest with ⟨hnone, c', hsame', hrun⟩ | ⟨m, c₂, c', hsome, hsame', hmark, hrun⟩
      · exact .inl ⟨hnone, c', hsame.trans hsame', hrun⟩
      · exact .inr ⟨m, c₂, c', hsome, hsame.trans hsame', hmark, hrun⟩
    · refine .inr ⟨n, c₁, c', List.find?_cons_of_pos hfree, hsame, hmark, ?_⟩
      simp only [reserveFirst, htry]
      rfl

theorem contains_of_mem_as_range {r : PortRange} {n : ℤ} (h : n ∈ r.as_range) :
    r.contains n = true := by
  obtain ⟨i, hi, rfl⟩ := List.mem_map.mp h
  rw [List.mem_range] at hi
  simp only [PortRange.contains, PortRange.len, Bool.and_eq_true, decide_eq_true_eq] at hi ⊢
  omega

/-- `reserve_port` reserves the candidate, and nothing where there is none. -/
theorem reserve_port_cases (hC : C.Documented) (r : PortRange) (bindable : Port → Bool)
    (now : ℚ) (c : C.Carrier) (port : Option IntOrPort) (duration : Option ℚ) :
    (candidate C r bindable now c port = none ∧ ∃ c', SameEntries c c' ∧
      reserve_port C maxsize r bindable now c port duration = (c', none)) ∨
    ∃ n c₁ c', candidate C r bindable now c port = some (pairOf port n) ∧
      free C bindable now c (pairOf port n) = true ∧ r.contains (pairOf port n).port = true ∧
      SameEntries c c₁ ∧
      mark_reserved C maxsize r now c₁ (pairOf port n) duration = some c' ∧
      reserve_port C maxsize r bindable now c port duration = (c', some n) := by
  cases port with
  | some port =>
    by_cases hr : r.contains (Port.wrap port).port = true
    · rcases @try_reserve_port_cases C maxsize hC r bindable now c (Port.wrap port) duration hr
        with ⟨hfree, c', hsame, htry⟩ | ⟨hfree, c₁, c', hsame, hmark, htry⟩
      · refine .inl ⟨by simp [candidate, hfree], c', hsame, ?_⟩
        rw [reserve_port, if_pos hr, htry]
      · refine .inr ⟨(Port.wrap port).port, c₁, c', by simp [candidate, hr, hfree, pairOf], hfree,
          hr, hsame, hmark, ?_⟩
        rw [reserve_port, if_pos hr, htry]
    · refine .inl ⟨by simp [candidate, hr], c, ⟨fun _ => rfl, rfl⟩, ?_⟩
      rw [reserve_port, if_neg hr]
  | none =>
    rcases @reserveFirst_cases C maxsize hC r bindable now duration r.as_range
      (fun n hn => contains_of_mem_as_range hn) c with
      ⟨hnone, c', hsame, hrun⟩ | ⟨n, c₁, c', hsome, hsame, hmark, hrun⟩
    · exact .inl ⟨hnone, c', hsame, hrun⟩
    · have hmem := List.mem_of_find?_eq_some hsome
      obtain ⟨m, hm, hmn⟩ := List.mem_map.mp hmem
      have hrange : r.contains (Port.wrap (.int n)).port = true := by
        rw [← hmn]
        exact contains_of_mem_as_range hm
      exact .inr ⟨n, c₁, c', hsome, List.find?_some hsome, hrange, hsame, hmark, hrun⟩

/-! ## What is reserved stays reserved -/

/-- The ranges lie in the first one, and a reservation that is still to expire has an entry
that does not expire before it. -/
structure Inv (root : PortRange) (w : World C) : Prop where
  inside : ∀ r ∈ w.ranges, root.start ≤ r.start ∧ r.last ≤ root.last
  entry : ∀ p ∈ w.reserved, w.now < p.2 → ∃ e, C.expires w.cache p.1 = some e ∧ p.2 ≤ e

theorem Inv.held (hC : C.Documented) {root : PortRange} {w : World C} (h : Inv root w) :
    Held C w := by
  intro p hp hlt
  obtain ⟨e, he, hle⟩ := h.entry p hp hlt
  exact (hC.get_iff w.now w.cache p.1).mpr ⟨e, he, lt_of_lt_of_le hlt hle⟩

theorem subrange_inside {r sub : PortRange} {start last : Option ℤ}
    (h : r.subrange start last = some sub) : r.start ≤ sub.start ∧ sub.last ≤ r.last := by
  simp only [PortRange.subrange] at h
  split_ifs at h with hstart hlast hlen
  simp only [Option.some.injEq] at h
  subst h
  exact ⟨not_lt.mp hstart, not_lt.mp hlast⟩

theorem maxsize_pos {root r : PortRange} (h : root.start ≤ r.start ∧ r.last ≤ root.last) {n : ℤ}
    (hn : r.contains n = true) : 0 < root.len.toNat := by
  simp only [PortRange.contains, Bool.and_eq_true, decide_eq_true_eq] at hn
  simp only [PortRange.len]
  omega

/-- What a free port was reserved for has expired. -/
theorem Inv.fresh (hC : C.Documented) {root : PortRange} {w : World C} (h : Inv root w)
    {bindable : Port → Bool} {port : Port} (hfree : free C bindable w.now w.cache port = true) :
    ∀ p ∈ w.reserved, p.1 = port → p.2 ≤ w.now := by
  rintro p hp rfl
  by_contra hlt
  have hres := h.held hC p hp (not_le.mp hlt)
  simp [free, hres] at hfree

/-- A new reservation, where there is room and none is cut short. -/
theorem Inv.reserve (hC : C.Documented) {root r : PortRange} {w : World C} (h : Inv root w)
    (hr : r ∈ w.ranges) {port : Port} {duration : Option ℚ} {c₁ c' : C.Carrier}
    (hsame : SameEntries w.cache c₁)
    (hmark : mark_reserved C root.len.toNat r w.now c₁ port duration = some c')
    (hport : r.contains port.port = true)
    (hroom : roomy C root.len.toNat w.cache port = true)
    (hcut : ∀ p ∈ w.reserved, p.1 = port → p.2 ≤ w.now ∨ p.2 ≤ expiry w.now duration) :
    Inv root { w with cache := c',
                      reserved := w.reserved ++ [(port, expiry w.now duration)] } := by
  obtain ⟨hnew, hold⟩ := mark_reserved_spec hC (maxsize_pos (h.inside r hr) hport) hmark
    ((hsame.roomy_eq port).trans hroom)
  refine ⟨h.inside, fun p hp hlt => ?_⟩
  rcases List.mem_append.mp hp with hp | hp
  · by_cases hpp : p.1 = port
    · refine ⟨_, by rw [hpp]; exact hnew, (hcut p hp hpp).resolve_left (not_le.mpr hlt)⟩
    · obtain ⟨e, he, hle⟩ := h.entry p hp hlt
      rw [← hsame.expires] at he
      exact ⟨e, hold p.1 e (Ne.symm hpp) he (lt_of_lt_of_le hlt hle), hle⟩
  · rw [List.mem_singleton] at hp
    subst hp
    exact ⟨_, hnew, le_refl _⟩

theorem Inv.same {root : PortRange} {w : World C} (h : Inv root w) {c : C.Carrier}
    (hsame : SameEntries w.cache c) : Inv root { w with cache := c } := by
  refine ⟨h.inside, fun p hp hlt => ?_⟩
  obtain ⟨e, he, hle⟩ := h.entry p hp hlt
  exact ⟨e, (hsame.expires p.1).trans he, hle⟩

theorem Inv.step (hC : C.Documented) {root : PortRange} {w w' : World C} {a : Action}
    (h : Inv root w) (hok : allowed C root.len.toNat w a = true)
    (hs : step C root.len.toNat w a = some w') : Inv root w' := by
  cases a with
  | subrange i start last =>
    obtain ⟨r, hr, rfl⟩ := Option.map_eq_some_iff.mp hs
    cases hsub : r.subrange start last with
    | none => exact h
    | some sub =>
      refine ⟨fun r' hr' => ?_, h.entry⟩
      rcases List.mem_append.mp hr' with hr' | hr'
      · exact h.inside r' hr'
      · rw [List.mem_singleton] at hr'
        subst hr'
        have hin := h.inside r (List.mem_of_getElem? hr)
        have hsub' := subrange_inside hsub
        omega
  | reserve_port i port duration bindable =>
    obtain ⟨r, hr, rfl⟩ := Option.map_eq_some_iff.mp hs
    simp only [allowed, hr, Option.bind_some] at hok
    rcases @reserve_port_cases C root.len.toNat hC r bindable w.now w.cache port duration with
      ⟨-, c', hsame, hrun⟩ | ⟨n, c₁, c', hcand, hfree, hport, hsame, hmark, hrun⟩
    · simp only [hrun]
      exact h.same hsame
    · rw [hcand, Option.all_some] at hok
      simp only [hrun]
      exact h.reserve hC (List.mem_of_getElem? hr) hsame hmark hport hok
        fun p hp hpp => .inl (h.fresh hC hfree p hp hpp)
  | mark_reserved i port duration =>
    obtain ⟨r, hr, rfl⟩ := Option.map_eq_some_iff.mp hs
    cases hmark : mark_reserved C root.len.toNat r w.now w.cache (Port.wrap port) duration with
    | none => exact h
    | some c' =>
      have hport : r.contains (Port.wrap port).port = true := by
        unfold mark_reserved at hmark
        split_ifs at hmark with hport
        exact hport
      simp only [allowed, hr, Option.all_some, hport, Bool.not_true, Bool.false_or,
        Bool.and_eq_true, List.all_eq_true, Bool.or_eq_true, decide_eq_true_eq] at hok
      refine h.reserve hC (List.mem_of_getElem? hr) ⟨fun _ => rfl, rfl⟩ hmark hport hok.1
        fun p hp hpp => ?_
      rcases hok.2 p hp with (hne | hle) | hle
      · exact absurd hpp hne
      · exact .inl hle
      · exact .inr hle
  | tick later =>
    simp only [Net.step] at hs
    split_ifs at hs with hle
    cases hs
    exact ⟨h.inside, fun p hp hlt => h.entry p hp (lt_of_le_of_lt hle hlt)⟩

theorem Inv.fresh_action (hC : C.Documented) {root : PortRange} {w : World C} (h : Inv root w)
    (maxsize : ℕ) (a : Action) : Fresh C maxsize w a := by
  cases a with
  | reserve_port i port duration bindable =>
    intro r n hr hn
    rcases @reserve_port_cases C maxsize hC r bindable w.now w.cache port duration with
      ⟨-, c', -, hrun⟩ | ⟨m, c₁, c', -, hfree, -, -, -, hrun⟩
    · rw [hrun] at hn
      cases hn
    · rw [hrun] at hn
      cases hn
      exact h.fresh hC hfree
  | subrange i start last => trivial
  | mark_reserved i port duration => trivial
  | tick later => trivial

/-- A new port range, at any time. -/
def World.init (root : PortRange) (now : ℚ) : World C := ⟨[root], C.new, now, []⟩

/-- Where there is always room and no reservation is cut short, a port that has been
reserved is seen as reserved until that expires, and is not handed out before. -/
theorem reserved_until_expiry (hC : C.Documented) (root : PortRange) (now : ℚ)
    {es : List (Event (World C) Action)} {w : World C}
    (hr : Run (Net.step C root.len.toNat) (World.init root now) es w)
    (h : Guarded (fun w a => allowed C root.len.toNat w a = true) es) :
    Always (Held C) (World.init root now) es ∧ Guarded (Fresh C root.len.toNat) es := by
  have hinit : Inv root (World.init root now : World C) := by
    refine ⟨fun r hr => ?_, nofun⟩
    rw [List.mem_singleton.mp hr]
    exact ⟨le_refl _, le_refl _⟩
  have hall := hr.always hinit (fun _ _ _ hw hok hs => hw.step hC hok hs) h
  refine ⟨⟨hall.1.held hC, fun e he => (hall.2 e he).held hC⟩, fun e he => ?_⟩
  exact (hr.pre_of_always hall he).fresh_action hC _ e.label

/-- A range of two ports and a subrange: the first port is reserved for tcp, the second by
the subrange for udp, and six seconds later the first again. -/
def reservations : List Action :=
  [.subrange 0 (some 5001) none, .reserve_port 0 none (some 2) fun _ => true,
    .reserve_port 1 (some (.port ⟨5001, "udp".toList⟩)) (some 100) fun _ => true, .tick 6,
    .mark_reserved 0 (.int 5000) none]

theorem reservations_until_expiry :
    ∃ (es : List (Event (World (lru Port ℚ)) Action)) (w : World (lru Port ℚ)),
      Run (step (lru Port ℚ) (PortRange.mk 5000 5001).len.toNat)
        (World.init ⟨5000, 5001⟩ 0) es w ∧
      es.map Event.label = reservations ∧
      w.reserved = [(⟨5000, "tcp".toList⟩, 2), (⟨5001, "udp".toList⟩, 100),
        (⟨5000, "tcp".toList⟩, 12)] ∧
      Always (Held (lru Port ℚ)) (World.init ⟨5000, 5001⟩ 0) es ∧
      Guarded (Fresh (lru Port ℚ) (PortRange.mk 5000 5001).len.toNat) es := by
  obtain ⟨es, w, hr, hok, hlabels, hw⟩ := @exists_guarded_run _ _
    (step (lru Port ℚ) (PortRange.mk 5000 5001).len.toNat) (World.init ⟨5000, 5001⟩ 0) _
    (fun w a => allowed (lru Port ℚ) (PortRange.mk 5000 5001).len.toNat w a = true) _
    World.reserved reservations
    [(⟨5000, "tcp".toList⟩, 2), (⟨5001, "udp".toList⟩, 100), (⟨5000, "tcp".toList⟩, 12)]
    (by decide +kernel)
  exact ⟨es, w, hr, hlabels, hw, reserved_until_expiry lru_documented _ 0 hr hok⟩

/-- A port that is reserved for udp pushes the same port for tcp out of the cache. -/
theorem evicted_before_expiry :
    ¬ ∀ C : Cache.{0, 0, 0} Port ℚ, C.Documented → ∀ (root : PortRange) (now : ℚ)
      (es : List (Event (World C) Action)) (w : World C),
      Run (step C root.len.toNat) (World.init root now) es w →
        Always (Held C) (World.init root now) es ∧ Guarded (Fresh C root.len.toNat) es := by
  intro h
  obtain ⟨es, w, hr, hw⟩ := @exists_run_of_replay _ _
    (step (lru Port ℚ) (PortRange.mk 5000 5000).len.toNat) (World.init ⟨5000, 5000⟩ 0) _
    (fun w : World (lru Port ℚ) => (w.reserved, w.now,
      (is_port_reserved (lru Port ℚ) w.now w.cache ⟨5000, "tcp".toList⟩).2))
    [.reserve_port 0 (some (.int 5000)) (some 100) fun _ => true,
      .reserve_port 0 (some (.port ⟨5000, "udp".toList⟩)) none fun _ => true]
    ([(⟨5000, "tcp".toList⟩, 100), (⟨5000, "udp".toList⟩, 6)], 0, false) (by decide +kernel)
  simp only [Prod.mk.injEq] at hw
  obtain ⟨hreserved, hnow, hnot⟩ := hw
  have hheld := hr.last_of_always (h (lru Port ℚ) lru_documented ⟨5000, 5000⟩ 0 es w hr).1
  have hseen := hheld (⟨5000, "tcp".toList⟩, 100) (by rw [hreserved]; simp)
    (by rw [hnow]; decide)
  rw [hnot] at hseen
  cases hseen

end LocalStack.Utils.Net
