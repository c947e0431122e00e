import LocalStack.Aws.Protocol.JsonTrees

/-! The REST-JSON serializer, which writes the `None` values of a map as null, and
the maps for which it does so. -/

namespace LocalStack.Aws.Protocol.RestJson
open LocalStack.Text LocalStack.OrderedDict
open LocalStack.Aws.Protocol.Serializer LocalStack.Aws.Protocol.JsonTrees
open LocalStack.Aws.Protocol.Json (serializeWith entriesWith)

/-- `RestJSONResponseSerializer._serialize`. -/
def serialize : Value → Shape → Str → Dict Str Value → Except Error (Dict Str Value) :=
  serializeWith true

/-- `Inside s v s' v'`: the serializer of `v` comes to `v'`, of shape `s'`. -/
inductive Inside : Shape → Value → Shape → Value → Prop
  | refl (s : Shape) (v : Value) : Inside s v s v
  | item {ser m vs v s' v'} : v ∈ vs → v ≠ .none → Inside m v s' v' →
      Inside (.list ser m) (.list vs) s' v'
  | entry {ser key s} {d : Dict Str Value} {p s' v'} : p ∈ d → p.2 ≠ .none →
      Inside s p.2 s' v' → Inside (.map ser key s) (.dict d) s' v'
  | member {ser traits} {ms : Dict Str Shape} {d : Dict Str Value} {k s v s' v'} :
      traits.is_document_type = false → ms.get k = some s → d.get k = some v → v ≠ .none →
      Inside s v s' v' → Inside (.struct ser traits ms) (.dict d) s' v'

/-- The map is written as an object with the same keys, null for `None`, and for
any other value what is written for it alone. -/
def KeepsNulls (ser key : Serialization) (value : Shape) (d : Dict Str Value) : Prop :=
  ∀ name body, ∃ obj : Dict Str Value,
    serialize (.dict d) (.map ser key value) name body = .ok (body.set name (.dict obj)) ∧
      obj.keys = d.keys ∧ (∀ k, d.get k = some .none → obj.get k = some .none) ∧
      ∀ k v, d.get k = some v → v ≠ .none →
        ∃ t, serialize v value k [] = .ok [(k, t)] ∧ obj.get k = some t

/-- The map and all maps inside it do. -/
def KeepsAllNulls (s : Shape) (v : Value) : Prop :=
  ∀ ser key value d, Inside s v (.map ser key value) (.dict d) → KeepsNulls ser key value d

/-! ## Plain nulls are kept -/

theorem loose_of_inside {R : ValueRules} {s s' : Shape} {v v' : Value} (h : Inside s v s' v')
    (hv : Loose R s v) : Loose R s' v' := by
  induction h with
  | refl => exact hv
  | item hmem hne _ ih =>
    cases hv with
    | list _ hall => exact ih (hall _ hmem hne)
  | entry hmem hne _ ih =>
    cases hv with
    | map _ _ _ hall => exact ih (hall _ hmem hne)
  | member hdoc hs hget hne _ ih =>
    cases hv with
    | document hdoc' => rw [hdoc] at hdoc'; cases hdoc'
    | struct _ _ _ _ hall => exact ih (hall _ _ _ hs hget hne)

theorem nullsPlain_of_inside {s s' : Shape} {v v' : Value} (h : Inside s v s' v')
    (hv : NullsPlain s v) : NullsPlain s' v' := by
  induction h with
  | refl => exact hv
  | item hmem hne _ ih =>
    cases hv with
    | list hall => exact ih (hall _ hmem hne)
  | entry hmem hne _ ih =>
    cases hv with
    | map _ hall => exact ih (hall _ hmem hne)
  | member hdoc hs hget hne _ ih =>
    cases hv with
    | document hdoc' => rw [hdoc] at hdoc'; cases hdoc'
    | struct _ hall => exact ih (hall _ _ _ hs hget hne)

theorem entryTrees_true (value : Shape) (d : List (Str × Value)) :
    entryTrees true value d = d.map fun p => (p.1, tree true p.2 value) := by
  simp [entryTrees_eq_map]

theorem keepsNulls_of_nullsPlain {ser key : Serialization} {value : Shape} {d : Dict Str Value}
    (h : Loose bodyScalars (.map ser key value) (.dict d))
    (hnulls : NullsPlain (.map ser key value) (.dict d)) : KeepsNulls ser key value d := by
  intro name body
  have hwritten : Written true (.map ser key value) (.dict d) :=
    written_of_loose (fun _ _ _ h => h) h fun _ => hnulls
  cases h with
  | map _ hwf _ hall =>
  cases hnulls with
  | map hplain hrest =>
  have hkeys : Dict.keys (d.map fun p => (p.1, tree true p.2 value)) = d.keys := by
    simp [Dict.keys]
  have hget : ∀ k, Dict.get (d.map fun p => (p.1, tree true p.2 value)) k =
      (d.get k).map fun v => tree true v value :=
    fun k => Dict.get_map (f := id) (g := fun _ v => tree true v value) fun _ _ h => h
  refine ⟨d.map fun p => (p.1, tree true p.2 value), ?_, hkeys, fun k hk => ?_,
    fun k v hk hne => ⟨tree true v value, ?_, by rw [hget, hk]; rfl⟩⟩
  · have hobj := hwritten name body
    rw [tree, entryTrees_true, Dict.ofPairs_of_wf (by rwa [Dict.WF, hkeys])] at hobj
    exact hobj
  · have hp := hplain (k, .none) (Dict.mem_of_get hk) rfl
    rw [hget, hk]
    cases value with
    | scalar ser t =>
      obtain ⟨hblob, htime⟩ := hp
      cases t <;> first | contradiction | rfl
    | _ => exact hp.elim
  · have hmem := Dict.mem_of_get hk
    exact written_of_loose (fun _ _ _ h => h) (hall _ hmem hne) (fun _ => hrest _ hmem hne) k []

/-! ## Other nulls are not -/

theorem of_wrapped_map {α β : Type} {r : Except Error α} {f : α → β} {b : β}
    (h : wrapSerializerErrors (r.map f) = .ok b) : ∃ a, r = .ok a ∧ f a = b := by
  cases r with
  | error e => cases e <;> cases h
  | ok a => exact ⟨a, rfl, Except.ok.inj h⟩

/-- Either a key is set, or nothing is done for a `None` that is no scalar. -/
theorem serializeWith_cases {keepsNone : Bool} {v : Value} {s : Shape} {key : Str}
    {body body' : Dict Str Value} (h : serializeWith keepsNone v s key body = .ok body') :
    (∃ t, body' = body.set key t) ∨ (v = .none ∧ body' = body) := by
  cases s with
  | scalar ser t =>
    rw [serializeWith] at h
    obtain ⟨r, -, hr⟩ := of_wrapped_map h
    exact .inl ⟨r, hr.symm⟩
  | list ser m =>
    cases v with
    | none => exact .inr ⟨rfl, (Except.ok.inj h).symm⟩
    | list vs =>
      obtain ⟨r, -, hr⟩ := of_wrapped_map h
      exact .inl ⟨_, hr.symm⟩
    | _ => cases h
  | map ser key value =>
    cases v with
    | none => exact .inr ⟨rfl, (Except.ok.inj h).symm⟩
    | dict d =>
      obtain ⟨r, -, hr⟩ := of_wrapped_map h
      exact .inl ⟨_, hr.symm⟩
    | _ => cases h
  | struct ser traits ms =>
    cases hdoc : traits.is_document_type <;> cases v <;>
      simp only [serializeWith, hdoc, Bool.false_eq_true, if_true, if_false] at h <;>
      first
      | exact .inr ⟨rfl, (Except.ok.inj h).symm⟩
      | exact .inl ⟨_, (Except.ok.inj h).symm⟩
      | (obtain ⟨r, -, hr⟩ := of_wrapped_map h; exact .inl ⟨_, hr.symm⟩)
      | cases h

theorem serializeWith_none {keepsNone : Bool} {s : Shape} (hs : ∀ ser t, s ≠ .scalar ser t)
    (key : Str) (body : Dict Str Value) : serializeWith keepsNone .none s key body = .ok body := by
  cases s with
  | scalar ser t => exact absurd rfl (hs ser t)
  | _ => rfl

/-- An object that is written has come to every entry. -/
theorem entry_ok_of_entriesWith {value : Shape} {d : List (Str × Value)}
    {obj obj' : Dict Str Value} (h : entriesWith true value d obj = .ok obj') :
    ∀ p ∈ d, ∃ body body', serializeWith true p.2 value p.1 body = .ok body' := by
  induction d generalizing obj with
  | nil => simp
  | cons p d ih =>
    obtain ⟨k, v⟩ := p
    simp only [entriesWith, Bool.not_true, Bool.and_false, Bool.false_eq_true, if_false] at h
    cases hp : serializeWith true v value k obj with
    | error e => rw [hp] at h; cases h
    | ok obj₁ =>
      rw [hp] at h
      exact List.forall_mem_cons.mpr ⟨⟨obj, obj₁, hp⟩, ih h⟩

/-- Its keys are those of values that are not `None`, unless the values are scalars. -/
theorem keys_entriesWith {value : Shape} (hvalue : ∀ ser t, value ≠ .scalar ser t)
    {d : List (Str × Value)} {obj obj' : Dict Str Value}
    (h : entriesWith true value d obj = .ok obj') {k : Str} (hk : k ∈ obj'.keys) :
    k ∈ obj.keys ∨ ∃ p ∈ d, p.1 = k ∧ p.2 ≠ .none := by
  induction d generalizing obj with
  | nil =>
    cases h
    exact .inl hk
  | cons p d ih =>
    obtain ⟨k₀, v⟩ := p
    simp only [entriesWith, Bool.not_true, Bool.and_false, Bool.false_eq_true, if_false] at h
    cases hp : serializeWith true v value k₀ obj with
    | error e => rw [hp] at h; cases h
    | ok obj₁ =>
      rw [hp] at h
      rcases ih h with hmem | ⟨p, hp', hpk, hne⟩
      · by_cases hv : v = .none
        · rw [hv, serializeWith_none hvalue, Except.ok.injEq] at hp
          exact .inl (hp ▸ hmem)
        · obtain ⟨t, rfl⟩ := (serializeWith_cases hp).resolve_right fun hn => hv hn.1
          rcases (Dict.mem_keys_set obj k₀ k t).mp hmem with rfl | hmem
          · exact .inr ⟨_, List.mem_cons_self, rfl, hv⟩
          · exact .inl hmem
      · exact .inr ⟨p, List.mem_cons_of_mem _ hp', hpk, hne⟩

/-- A null is only kept if the value shape is plain. -/
theorem plain_of_keepsNulls {ser key : Serialization} {value : Shape} {d : Dict Str Value}
    (hwf : d.WF) (h : KeepsNulls ser key value d) : ∀ p ∈ d, p.2 = .none → Plain value := by
  rintro ⟨k, v⟩ hp rfl
  obtain ⟨obj, hobj, -, hnull, -⟩ := h [] []
  obtain ⟨obj', hentries, hset⟩ := of_wrapped_map hobj
  have hsame : obj' = obj := by simpa [Dict.set] using hset
  subst hsame
  by_cases hvalue : ∃ ser t, value = .scalar ser t
  · obtain ⟨ser, t, rfl⟩ := hvalue
    obtain ⟨body, body', hok⟩ := entry_ok_of_entriesWith hentries _ hp
    constructor <;>
      · rintro rfl
        cases hok
  · have hscalar : ∀ ser t, value ≠ .scalar ser t := fun ser t he => hvalue ⟨ser, t, he⟩
    have hmem := Dict.mem_keys_of_mem (Dict.mem_of_get (hnull k (Dict.get_of_mem hwf hp)))
    rcases keys_entriesWith hscalar hentries hmem with hnil | ⟨q, hq, rfl, hne⟩
    · cases hnil
    · have hget := Dict.get_of_mem hwf hp
      rw [Dict.get_of_mem hwf hq, Option.some.injEq] at hget
      exact absurd hget hne

theorem nullsPlain_of_keepsAllNulls {s : Shape} {v : Value} (h : Loose bodyScalars s v)
    (hkeeps : KeepsAllNulls s v) : NullsPlain s v := by
  induction h with
  | scalar => exact .scalar
  | list _ _ ih =>
    exact .list fun v hv hne => ih v hv hne fun _ _ _ _ hin => hkeeps _ _ _ _ (.item hv hne hin)
  | map _ hwf _ _ ih =>
    refine .map (plain_of_keepsNulls hwf (hkeeps _ _ _ _ (.refl _ _))) fun p hp hne => ?_
    exact ih p hp hne fun _ _ _ _ hin => hkeeps _ _ _ _ (.entry hp hne hin)
  | document hdoc => exact .document hdoc
  | struct hdoc _ _ _ _ ih =>
    refine .struct hdoc fun k s v hs hget hne => ih k s v hs hget hne fun _ _ _ _ hin => ?_
    exact hkeeps _ _ _ _ (.member hdoc hs hget hne hin)

/-- A map and the maps inside it keep their nulls if and only if all of these are
under value shapes of strings, numbers or booleans. -/
theorem keepsAllNulls_iff_nullsPlain {ser key : Serialization} {value : Shape}
    {d : Dict Str Value} (h : Loose bodyScalars (.map ser key value) (.dict d)) :
    KeepsAllNulls (.map ser key value) (.dict d) ↔ NullsPlain (.map ser key value) (.dict d) :=
  ⟨nullsPlain_of_keepsAllNulls h, fun hplain _ _ _ _ hin =>
    keepsNulls_of_nullsPlain (loose_of_inside hin h) (nullsPlain_of_inside hin hplain)⟩

/-- A null blob is an error. -/
theorem null_blob_not_kept :
    ¬ KeepsAllNulls (.map {} {} (.scalar {} .blob)) (.dict [("a".toList, .none)]) := by
  intro h
  obtain ⟨obj, hobj, -⟩ := h _ _ _ _ (.refl _ _) [] []
  cases hobj

/-- A map of maps of strings. -/
theorem null_string_kept :
    KeepsAllNulls (.map {} {} (.map {} {} (.scalar {} .string)))
      (.dict [("m".toList, .dict [("a".toList, .none), ("b".toList, .str ['c'])])]) := by
  refine (keepsAllNulls_iff_nullsPlain ?_).mpr ?_
  · refine .map trivial (by decide) (fun _ _ => trivial) fun p hp _ => ?_
    obtain rfl := List.mem_singleton.mp hp
    refine .map trivial (by decide) (fun _ _ => trivial) fun p hp hne => ?_
    rcases List.mem_pair.mp hp with rfl | rfl
    · exact absurd rfl hne
    · exact .scalar trivial
  · refine .map (fun p hp hn => ?_) fun p hp _ => ?_
    · obtain rfl := List.mem_singleton.mp hp
      cases hn
    · obtain rfl := List.mem_singleton.mp hp
      exact .map (fun _ _ _ => ⟨by decide, by decide⟩) fun _ _ _ => .scalar

end LocalStack.Aws.Protocol.RestJson
