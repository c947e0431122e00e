import LocalStack.Config.HostAndPort
import LocalStack.Lib.Sets

/-! `UniqueHostAndPortList` of `config.py`: the addresses that the gateway listens to,
without those that others make superfluous. -/

namespace LocalStack.Config
open LocalStack.OrderedDict LocalStack.Text LocalStack.Sets

namespace UniqueHostAndPortList

/-- All interfaces of IPv6 and of IPv4. -/
def ANY6 : Str := "::".toList

def ANY4 : Str := "0.0.0.0".toList

/-- `hosts_by_port` after the loop that fills it. -/
def hosts_by_port (l : List HostAndPort) : Dict Int (List Str) :=
  l.foldl (fun d item => d.set item.port ((d.get item.port).getD [] ++ [item.host])) []

/-- The hosts that one port keeps; `o` is the order of the elements of sets. -/
def dedupe (o : Order Str) (hosts : List Str) : List Str :=
  let deduped_hosts := PySet.empty.update hosts
  if ANY6 ∈ deduped_hosts then [ANY6]
  else if ANY4 ∈ deduped_hosts then [ANY4]
  else o.list deduped_hosts

def ensure_unique (o : Order Str) (l : List HostAndPort) : List HostAndPort :=
  if l.length ≤ 1 then l
  else (hosts_by_port l).flatMap fun p => (dedupe o p.2).map fun host => ⟨host, p.1⟩

def append (o : Order Str) (l : List HostAndPort) (value : HostAndPort) : List HostAndPort :=
  ensure_unique o (l ++ [value])

/-- The list made from an iterable, after some calls of `append`. -/
def build (o : Order Str) (iterable appended : List HostAndPort) : List HostAndPort :=
  appended.foldl (append o) (ensure_unique o iterable)

variable {o : Order Str} {l : List HostAndPort} {b c : HostAndPort}

/-! ## What is kept -/

/-- `b` is one of the bindings `l` and no binding for all interfaces takes its place. -/
structure Kept (l : List HostAndPort) (b : HostAndPort) : Prop where
  mem : b ∈ l
  any6 : ⟨ANY6, b.port⟩ ∈ l → b.host = ANY6
  any4 : ⟨ANY6, b.port⟩ ∉ l → ⟨ANY4, b.port⟩ ∈ l → b.host = ANY4

theorem mem_dedupe {hosts : List Str} {host : Str} : host ∈ dedupe o hosts ↔
    host ∈ hosts ∧ (ANY6 ∈ hosts → host = ANY6) ∧ (ANY6 ∉ hosts → ANY4 ∈ hosts → host = ANY4) := by
  have hset : ∀ x, x ∈ PySet.empty.update hosts ↔ x ∈ hosts := by
    intro x
    rw [PySet.mem_update]
    exact or_iff_right List.not_mem_nil
  rw [dedupe]
  simp only [hset]
  split_ifs with h6 h4
  · simp only [List.mem_singleton, h6, forall_const, not_true, false_implies, and_true]
    exact ⟨fun h => ⟨h ▸ h6, h⟩, And.right⟩
  · simp only [List.mem_singleton, h6, h4, false_implies, true_and, not_false_iff, forall_const]
    exact ⟨fun h => ⟨h ▸ h4, h⟩, And.right⟩
  · rw [Order.mem_list, hset]
    simp [h6, h4]

theorem nodup_dedupe (hosts : List Str) : (dedupe o hosts).Nodup := by
  rw [dedupe]
  split_ifs
  · exact List.nodup_singleton _
  · exact List.nodup_singleton _
  · exact (o.perm _).nodup_iff.mpr (PySet.nodup _)

/-- The hosts of a port, as they come in the list. -/
theorem mem_hosts_by_port {p : Int × List Str} (h : p ∈ hosts_by_port l) (host : Str) :
    host ∈ p.2 ↔ ⟨host, p.1⟩ ∈ l := by
  rw [Dict.eq_of_mem_foldl_append HostAndPort.port HostAndPort.host h]
  simp only [List.mem_map, List.mem_filter, decide_eq_true_eq]
  constructor
  · rintro ⟨b, ⟨hb, hp⟩, rfl⟩
    rw [← hp]
    exact hb
  · intro hmem
    exact ⟨_, ⟨hmem, rfl⟩, rfl⟩

theorem exists_hosts_by_port (h : b ∈ l) : ∃ hosts, (b.port, hosts) ∈ hosts_by_port l := by
  have hkey : b.port ∈ Dict.keys (hosts_by_port l) :=
    (Dict.mem_keys_foldl_append HostAndPort.port HostAndPort.host l [] b.port).mpr
      (.inr (List.mem_map_of_mem h))
  obtain ⟨hosts, hget⟩ := Dict.exists_get hkey
  exact ⟨hosts, Dict.mem_of_get hget⟩

theorem kept_iff_of_hosts {p : Int × List Str} (h : p ∈ hosts_by_port l) (host : Str) :
    host ∈ dedupe o p.2 ↔ Kept l ⟨host, p.1⟩ := by
  rw [mem_dedupe, mem_hosts_by_port h, mem_hosts_by_port h, mem_hosts_by_port h]
  exact ⟨fun ⟨hm, h6, h4⟩ => ⟨hm, h6, h4⟩, fun ⟨hm, h6, h4⟩ => ⟨hm, h6, h4⟩⟩

theorem kept_of_short (h : l.length ≤ 1) (hb : b ∈ l) : Kept l b := by
  have hall : ∀ c ∈ l, c = b := by
    intro c hc
    match l, h with
    | [x], _ => rw [List.mem_singleton.mp hc, List.mem_singleton.mp hb]
  exact ⟨hb, fun h6 => (congrArg HostAndPort.host (hall _ h6)).symm,
    fun _ h4 => (congrArg HostAndPort.host (hall _ h4)).symm⟩

theorem mem_ensure_unique : b ∈ ensure_unique o l ↔ Kept l b := by
  rw [ensure_unique]
  split_ifs with hlen
  · exact ⟨kept_of_short hlen, Kept.mem⟩
  · simp only [List.mem_flatMap, List.mem_map]
    constructor
    · rintro ⟨p, hp, host, hhost, rfl⟩
      exact (kept_iff_of_hosts hp host).mp hhost
    · intro hk
      obtain ⟨hosts, hp⟩ := exists_hosts_by_port hk.mem
      exact ⟨_, hp, b.host, (kept_iff_of_hosts hp b.host).mpr hk, rfl⟩

theorem nodup_ensure_unique : (ensure_unique o l).Nodup := by
  rw [ensure_unique]
  split_ifs with hlen
  · match l, hlen with
    | [], _ => exact List.nodup_nil
    | [x], _ => exact List.nodup_singleton x
  · have hkeys : (hosts_by_port l).Pairwise fun p q => p.1 ≠ q.1 := by
      have hwf := Dict.wf_foldl_append HostAndPort.port HostAndPort.host l Dict.wf_nil
      exact List.pairwise_map.mp hwf
    rw [List.nodup_flatMap]
    constructor
    · intro p _
      exact (nodup_dedupe p.2).map fun x y h => congrArg HostAndPort.host h
    · refine hkeys.imp fun {p q} hne => ?_
      simp only [Function.onFun, List.Disjoint, List.mem_map]
      rintro x ⟨s, -, rfl⟩ ⟨t, -, ht⟩
      exact hne (congrArg HostAndPort.port ht).symm

/-! ## Any number of appends -/

theorem mem_any6 {port : Int} : ⟨ANY6, port⟩ ∈ ensure_unique o l ↔ ⟨ANY6, port⟩ ∈ l := by
  rw [mem_ensure_unique]
  exact ⟨Kept.mem, fun h => ⟨h, fun _ => rfl, fun hn => absurd h hn⟩⟩

theorem mem_any4 {port : Int} (h : ⟨ANY6, port⟩ ∉ l) :
    ⟨ANY4, port⟩ ∈ ensure_unique o l ↔ ⟨ANY4, port⟩ ∈ l := by
  rw [mem_ensure_unique]
  exact ⟨Kept.mem, fun h4 => ⟨h4, fun h6 => absurd h6 h, fun _ _ => rfl⟩⟩

/-- What was dropped makes no difference later. -/
theorem kept_append_ensure_unique {vs : List HostAndPort} :
    Kept (ensure_unique o l ++ vs) b ↔ Kept (l ++ vs) b := by
  have h6 : ∀ port, ⟨ANY6, port⟩ ∈ ensure_unique o l ++ vs ↔ ⟨ANY6, port⟩ ∈ l ++ vs := by
    intro port
    rw [List.mem_append, List.mem_append, mem_any6]
  have h4 : ∀ port, ⟨ANY6, port⟩ ∉ l ++ vs →
      (⟨ANY4, port⟩ ∈ ensure_unique o l ++ vs ↔ ⟨ANY4, port⟩ ∈ l ++ vs) := by
    intro port hn
    rw [List.mem_append, List.mem_append, mem_any4 fun h => hn (List.mem_append_left _ h)]
  constructor
  · rintro ⟨hmem, hany6, hany4⟩
    rw [h6] at hany6 hany4
    refine ⟨?_, hany6, fun hn h => hany4 hn ((h4 _ hn).mpr h)⟩
    rcases List.mem_append.mp hmem with h | h
    · exact List.mem_append_left _ (mem_ensure_unique.mp h).mem
    · exact List.mem_append_right _ h
  · rintro ⟨hmem, hany6, hany4⟩
    refine ⟨?_, fun h => hany6 ((h6 _).mp h), fun hn h => ?_⟩
    · rcases List.mem_append.mp hmem with hl | hv
      · refine List.mem_append_left _ (mem_ensure_unique.mpr ⟨hl, ?_, ?_⟩)
        · exact fun h => hany6 (List.mem_append_left _ h)
        · intro hn h
          by_cases hv : ⟨ANY6, b.port⟩ ∈ l ++ vs
          · have hb : b = ⟨ANY6, b.port⟩ := by rw [← hany6 hv]
            rw [hb] at hl
            exact absurd hl hn
          · exact hany4 hv (List.mem_append_left _ h)
      · exact List.mem_append_right _ hv
    · rw [h6] at hn
      exact hany4 hn ((h4 _ hn).mp h)

theorem mem_build {appended : List HostAndPort} :
    b ∈ build o l appended ↔ Kept (l ++ appended) b := by
  induction appended generalizing l with
  | nil => rw [List.append_nil, ← @mem_ensure_unique o, build, List.foldl_nil]
  | cons v vs ih =>
    have hstep : build o l (v :: vs) = build o (ensure_unique o l ++ [v]) vs := rfl
    rw [hstep, ih, List.append_assoc, List.singleton_append, kept_append_ensure_unique]

theorem nodup_build {appended : List HostAndPort} : (build o l appended).Nodup := by
  induction appended generalizing l with
  | nil => exact nodup_ensure_unique
  | cons v vs ih => exact @ih (ensure_unique o l ++ [v])

/-! ## Covering -/

/-- Listening to `c` takes the connections to `b`. -/
def Covers (c b : HostAndPort) : Prop :=
  c = b ∨ c.port = b.port ∧ (c.host = ANY6 ∨ c.host = ANY4 ∧ is_ipv6_address b.host = false)

/-- The bindings of `l` are enough for those given, and none of them is superfluous. -/
structure Covering (given l : List HostAndPort) : Prop where
  nodup : l.Nodup
  given_of_mem : ∀ b ∈ l, b ∈ given
  covered : ∀ b ∈ given, ∃ c ∈ l, Covers c b
  minimal : ∀ b ∈ l, ∀ c ∈ l, Covers c b → c = b

/-- Where a port is given with `0.0.0.0` and with an IPv6 host, it is also given with
`::`. -/
def FamiliesApart (given : List HostAndPort) : Prop :=
  ∀ b ∈ given, is_ipv6_address b.host = true → ⟨ANY4, b.port⟩ ∈ given → ⟨ANY6, b.port⟩ ∈ given

theorem Kept.eq_of_covers (hb : Kept l b) (hc : Kept l c) (h : Covers c b) : c = b := by
  rcases h with h | ⟨hp, hh | ⟨hh, hv⟩⟩
  · exact h
  · have hmem := hc.mem
    have hc' : c = ⟨ANY6, b.port⟩ := by rw [← hp, ← hh]
    rw [hc'] at hmem ⊢
    rw [← hb.any6 hmem]
  · have hmem := hc.mem
    have hc' : c = ⟨ANY4, b.port⟩ := by rw [← hp, ← hh]
    by_cases h6 : ⟨ANY6, b.port⟩ ∈ l
    · rw [hb.any6 h6] at hv
      exact absurd hv (by decide)
    · rw [hc'] at hmem ⊢
      rw [← hb.any4 h6 hmem]

theorem exists_kept_covers (h : FamiliesApart l) (hb : b ∈ l) : ∃ c, Kept l c ∧ Covers c b := by
  by_cases h6 : ⟨ANY6, b.port⟩ ∈ l
  · exact ⟨⟨ANY6, b.port⟩, ⟨h6, fun _ => rfl, fun hn => absurd h6 hn⟩, .inr ⟨rfl, .inl rfl⟩⟩
  · by_cases h4 : ⟨ANY4, b.port⟩ ∈ l
    · refine ⟨⟨ANY4, b.port⟩, ⟨h4, fun h => absurd h h6, fun _ _ => rfl⟩, .inr ⟨rfl, .inr ⟨rfl, ?_⟩⟩⟩
      exact Bool.eq_false_iff.mpr fun hv => h6 (h b hb hv h4)
    · exact ⟨b, ⟨hb, fun h => absurd h h6, fun _ h => absurd h h4⟩, .inl rfl⟩

/-- An IPv6 host is lost where `0.0.0.0` is the most general host of its port. -/
theorem not_covered (hb : is_ipv6_address b.host = true) (h4 : ⟨ANY4, b.port⟩ ∈ l)
    (h6 : ⟨ANY6, b.port⟩ ∉ l) (hc : Kept l c) : ¬Covers c b := by
  rintro (rfl | ⟨hp, hh | ⟨-, hv⟩⟩)
  · rw [hc.any4 h6 h4] at hb
    exact absurd hb (by decide)
  · have hmem := hc.mem
    have hc' : c = ⟨ANY6, b.port⟩ := by rw [← hp, ← hh]
    rw [hc'] at hmem
    exact h6 hmem
  · rw [hb] at hv
    cases hv

/-- **Bindings that cover what was given.** The gateway listens for all given bindings
and no more exactly if no IPv6 host shares its port with `0.0.0.0` alone. -/
theorem covering_build_iff (o : Order Str) (iterable appended : List HostAndPort) :
    Covering (iterable ++ appended) (build o iterable appended) ↔
      FamiliesApart (iterable ++ appended) := by
  constructor
  · intro h b hb hv h4
    by_contra h6
    obtain ⟨c, hc, hcov⟩ := h.covered b hb
    exact not_covered hv h4 h6 (mem_build.mp hc) hcov
  · intro h
    refine ⟨nodup_build, fun b hb => (mem_build.mp hb).mem, fun b hb => ?_, ?_⟩
    · obtain ⟨c, hc, hcov⟩ := exists_kept_covers h hb
      exact ⟨c, mem_build.mpr hc, hcov⟩
    · exact fun b hb c hc => (mem_build.mp hb).eq_of_covers (mem_build.mp hc)

theorem not_covering_loopback :
    ¬Covering ([⟨"::1".toList, 4566⟩] ++ [⟨ANY4, 4566⟩])
      (build .insertion [⟨"::1".toList, 4566⟩] [⟨ANY4, 4566⟩]) := by
  intro h
  obtain ⟨c, hc, hcov⟩ := h.covered ⟨"::1".toList, 4566⟩ (by decide)
  exact not_covered (by decide) (by decide) (by decide) (mem_build.mp hc) hcov

end UniqueHostAndPortList

end LocalStack.Config
