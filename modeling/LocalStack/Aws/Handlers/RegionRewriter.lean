import LocalStack.Aws.Handlers.Region

/-! The header that `DefaultRegionRewriterStrategy` writes. It replaces credentials from the
left, without overlaps, and the last credential is the one that is read: the two searches
agree on a header where the last credential is a replaced one. -/

namespace LocalStack.Aws.Handlers.RegionRewriter
open LocalStack.Aws.Handlers.Region LocalStack.Fields LocalStack.HttpHeaders
open LocalStack.OrderedDict LocalStack.Regex LocalStack.Text

/-! ## The fields that are written -/

/-- A credential begins in the field `s`, with `t` and `u` behind it. -/
def Begins (s t u : Str) : Prop := (credential s).isSome = true ∧ t ≠ [] ∧ u ≠ []

instance (s t u : Str) : Decidable (Begins s t u) := inferInstanceAs (Decidable (_ ∧ _ ∧ _))

def rewriteFields (region : Str) : List Str → List Str
  | s :: t :: u :: v :: rest =>
    if Begins s t u then s :: t :: region :: rewriteFields region (v :: rest)
    else s :: rewriteFields region (t :: u :: v :: rest)
  | fs => fs

theorem length_le_of_short {fs : List Str}
    (h : ∀ s t u v rest, fs = s :: t :: u :: v :: rest → False) : fs.length ≤ 3 := by
  rcases fs with - | ⟨s, - | ⟨t, - | ⟨u, - | ⟨v, rest⟩⟩⟩⟩
  iterate 4 simp
  exact (h s t u v rest rfl).elim

section Sub
variable (region : Str)

theorem not_mem_of_cons {x : Char} {s : Str} {fs : List Str} (h : ∀ f ∈ (x :: s) :: fs, '/' ∉ f) :
    ∀ f ∈ s :: fs, '/' ∉ f := by
  rw [List.forall_mem_cons, List.mem_cons, not_or] at h
  exact List.forall_mem_cons.mpr ⟨h.1.2, h.2⟩

theorem match_join {s : Str} {fs : List Str} (hfs : ∀ f ∈ s :: fs, '/' ∉ f) :
    rewriteRegex.match_ (join '/' (s :: fs)) =
      (keyAt s).bind fun k => (behind fs).map fun p =>
        ⟨join '/' p.2.2, ((Dict.set [] 1 k).set 2 p.1).set 3 p.2.1⟩ := by
  rw [List.forall_mem_cons] at hfs
  exact credential_join (takesField_group 1) (takesField_group 2) (takesField_group 3) hfs.1
    hfs.2 []

/-- A field that no match begins in is kept, and the slash behind it. -/
theorem sub_kept {s : Str} {fs : List Str} (hfs : ∀ f ∈ s :: fs, '/' ∉ f)
    (h : credential s = none ∨ behind fs = none) :
    rewriteRegex.sub (replacement region) (join '/' (s :: fs)) =
      s ++ if fs = [] then [] else '/' :: rewriteRegex.sub (replacement region) (join '/' fs) := by
  induction s with
  | nil =>
    split
    · next hnil => rw [hnil]; rfl
    · next hne =>
      have hmatch := match_join hfs
      rw [join_cons [] hne] at hmatch ⊢
      exact Pattern.sub_cons_none hmatch
  | cons x s ih =>
    have hmatch : rewriteRegex.match_ (join '/' ((x :: s) :: fs)) = none := by
      rw [match_join hfs]
      rcases h with h | h
      · rw [(Option.or_eq_none_iff.mp h).2]
        rfl
      · rw [h]
        cases keyAt (x :: s) <;> rfl
    rw [join_cons_cons] at hmatch ⊢
    rw [Pattern.sub_cons_none hmatch, ih (not_mem_of_cons hfs)
      (h.imp_left fun h => (Option.or_eq_none_iff.mp h).1)]
    rfl

theorem replacement_groups (k t u : Str) :
    replacement region (((Dict.set [] 1 k).set 2 t).set 3 u) =
      mark ++ k ++ '/' :: t ++ '/' :: region ++ ['/'] := rfl

/-- A match takes three fields and writes the region for the third. -/
theorem sub_taken {s t u : Str} {rest : List Str} (hfs : ∀ f ∈ s :: t :: u :: rest, '/' ∉ f)
    (hrest : rest ≠ []) (h : Begins s t u) :
    rewriteRegex.sub (replacement region) (join '/' (s :: t :: u :: rest)) =
      join '/' [s, t, region] ++ '/' :: rewriteRegex.sub (replacement region) (join '/' rest) := by
  obtain ⟨hs, ht, hu⟩ := h
  have hbehind : behind (t :: u :: rest) = some (t, u, rest) :=
    behind_eq_some.mpr ⟨rfl, ht, hu, hrest⟩
  induction s with
  | nil => cases hs
  | cons x s ih =>
    have hmatch := match_join hfs
    rw [hbehind] at hmatch
    cases hk : keyAt (x :: s) with
    | none =>
      rw [credential, hk, Option.or_none] at hs
      rw [hk, join_cons_cons] at hmatch
      rw [join_cons_cons, Pattern.sub_cons_none hmatch, ih (not_mem_of_cons hfs) hs, join_cons_cons]
      rfl
    | some k =>
      rw [hk, Option.bind_some, Option.map_some] at hmatch
      obtain ⟨heq, -⟩ := keyAt_eq_some.mp hk
      have htext : join '/' ((x :: s) :: t :: u :: rest) =
          (mark ++ k ++ '/' :: t ++ '/' :: u ++ ['/']) ++ join '/' rest := by
        rw [heq, join_cons _ (by simp), join_cons t (by simp), join_cons u hrest]
        simp
      rw [htext] at hmatch ⊢
      rw [Pattern.sub_found (by simp) hmatch, replacement_groups, heq, join_cons _ (by simp),
        join_cons t (by simp), join_singleton]
      simp

theorem sub_short {fs : List Str} (hfs : ∀ f ∈ fs, '/' ∉ f) (hlen : fs.length ≤ 3) :
    rewriteRegex.sub (replacement region) (join '/' fs) = join '/' fs := by
  induction fs with
  | nil => rfl
  | cons s fs ih =>
    have hbehind : behind fs = none := by
      cases hb : behind fs with
      | none => rfl
      | some p =>
        obtain ⟨t, u, rest⟩ := p
        obtain ⟨rfl, -, -, hrest⟩ := behind_eq_some.mp hb
        have := List.length_pos_of_ne_nil hrest
        simp only [List.length_cons] at hlen
        omega
    rw [sub_kept region hfs (.inr hbehind)]
    by_cases hne : fs = []
    · rw [if_pos hne, hne, join_singleton, List.append_nil]
    · rw [List.forall_mem_cons] at hfs
      rw [if_neg hne, ih hfs.2 (Nat.le_of_succ_le hlen), join_cons s hne]

theorem rewriteFields_ne_nil {fs : List Str} (h : fs ≠ []) : rewriteFields region fs ≠ [] := by
  fun_cases rewriteFields region fs with
  | case1 => exact List.cons_ne_nil _ _
  | case2 => exact List.cons_ne_nil _ _
  | case3 => exact h

theorem sub_join {fs : List Str} (hfs : ∀ f ∈ fs, '/' ∉ f) :
    rewriteRegex.sub (replacement region) (join '/' fs) = join '/' (rewriteFields region fs) := by
  fun_induction rewriteFields region fs with
  | case1 s t u v rest hb ih =>
    have hrest : ∀ f ∈ v :: rest, '/' ∉ f := by
      simp only [List.forall_mem_cons] at hfs ⊢
      exact hfs.2.2.2
    rw [sub_taken region hfs (List.cons_ne_nil v rest) hb, ih hrest]
    exact (@join_append '/' [s, t, region] _ (by simp)
      (rewriteFields_ne_nil region (List.cons_ne_nil v rest))).symm
  | case2 s t u v rest hb ih =>
    have hkept : credential s = none ∨ behind (t :: u :: v :: rest) = none := by
      rw [Begins, Option.isSome_iff_ne_none, not_and_or, not_not] at hb
      exact hb.imp_right fun h => if_neg h
    rw [sub_kept region hfs hkept, if_neg (List.cons_ne_nil _ _),
      ih (List.forall_mem_cons.mp hfs).2,
      join_cons s (rewriteFields_ne_nil region (List.cons_ne_nil t _))]
  | case3 fs hshort => exact sub_short region hfs (length_le_of_short hshort)

end Sub

/-! ## The credential that is read -/

/-- The fields that a match takes, and what is behind them. -/
structure Taken where
  first : Str
  date : Str
  region : Str
  rest : List Str

/-- The last match. -/
def lastTaken : List Str → Option Taken
  | s :: t :: u :: v :: rest =>
    if Begins s t u then (lastTaken (v :: rest)).or (some ⟨s, t, u, v :: rest⟩)
    else lastTaken (t :: u :: v :: rest)
  | _ => none

/-- The last credential is not always the last match `c`: it can begin in the region or in the
date of `c`. The region is overwritten. A credential that begins in the date is then the last
one, and it has to have the region and the key that are wanted. -/
def Settled (signed : Prop) (c : Taken) : Prop :=
  match credentialAt c.region c.rest, credentialAt c.date (c.region :: c.rest) with
  | some found, some read => read.2 = default_region ∧ (signed → read.1 = found.1)
  | some found, none => signed → credential c.first = some found.1
  | none, some _ => False
  | none, none => True

section Read
variable {s t u v : Str} {fs rest : List Str}

theorem credentialAt_of_begins (h : Begins s t u) (v : Str) (rest : List Str) :
    ∃ k, credential s = some k ∧ credentialAt s (t :: u :: v :: rest) = some (k, u) := by
  obtain ⟨hs, ht, hu⟩ := h
  obtain ⟨k, hk⟩ := Option.isSome_iff_exists.mp hs
  refine ⟨k, hk, ?_⟩
  rw [credentialAt, hk, behind_eq_some.mpr ⟨rfl, ht, hu, List.cons_ne_nil v rest⟩]
  rfl

theorem credentialAt_of_not_begins (h : ¬ Begins s t u) (rest : List Str) :
    credentialAt s (t :: u :: rest) = none := by
  rw [credentialAt, Option.bind_eq_none_iff]
  intro k hk
  rw [Option.map_eq_none_iff, Option.eq_none_iff_forall_ne_some]
  rintro ⟨t', u', rest'⟩ hb
  obtain ⟨heq, ht, hu, -⟩ := behind_eq_some.mp hb
  obtain ⟨rfl, htail⟩ := List.cons.inj heq
  obtain ⟨rfl, -⟩ := List.cons.inj htail
  exact h ⟨by rw [hk]; rfl, ht, hu⟩

/-- The text of the first field behind a key does not matter. -/
theorem credentialAt_congr (ht : t ≠ []) (hu : u ≠ []) (s : Str) (rest : List Str) :
    credentialAt s (t :: rest) = credentialAt s (u :: rest) := by
  rcases rest with - | ⟨v, - | ⟨w, rest⟩⟩
  · rfl
  · rfl
  · by_cases hv : v = []
    · simp [credentialAt, behind, hv]
    · simp [credentialAt, behind, ht, hu, hv]

theorem exists_rewriteFields_cons (region s : Str) (rest : List Str) :
    ∃ rest', rewriteFields region (s :: rest) = s :: rest' := by
  rcases rest with - | ⟨t, - | ⟨u, - | ⟨v, rest⟩⟩⟩
  iterate 3 exact ⟨_, rfl⟩
  rw [rewriteFields]
  split <;> exact ⟨_, rfl⟩

/-- The first two fields are never written. -/
theorem exists_rewriteFields (region s t : Str) (rest : List Str) :
    ∃ rest', rewriteFields region (s :: t :: rest) = s :: t :: rest' := by
  rcases rest with - | ⟨u, - | ⟨v, rest⟩⟩
  iterate 2 exact ⟨_, rfl⟩
  rw [rewriteFields]
  split
  · exact ⟨_, rfl⟩
  · obtain ⟨rest', hkept⟩ := exists_rewriteFields_cons region t (u :: v :: rest)
    exact ⟨rest', by rw [hkept]⟩

theorem lastCredential_short (h : ∀ s t u v rest, fs = s :: t :: u :: v :: rest → False) :
    lastCredential fs = none := by
  rw [Option.eq_none_iff_forall_ne_some]
  intro p hp
  have hlen := (mem_of_lastCredential hp).2.2
  have hshort := length_le_of_short h
  omega

theorem lastCredential_of_begins (h : Begins s t u) (v : Str) (rest : List Str) :
    (lastCredential (s :: t :: u :: v :: rest)).isSome = true := by
  obtain ⟨k, -, hat⟩ := credentialAt_of_begins h v rest
  rw [lastCredential, hat, Option.isSome_or, Option.isSome_some, Bool.or_true]

theorem lastCredential_of_not_begins (h : ¬ Begins s t u) (rest : List Str) :
    lastCredential (s :: t :: u :: rest) = lastCredential (t :: u :: rest) := by
  rw [lastCredential, credentialAt_of_not_begins h, Option.or_none]

/-- There is a match where there is a credential. -/
theorem lastTaken_isSome (fs : List Str) :
    (lastTaken fs).isSome = (lastCredential fs).isSome := by
  fun_induction lastTaken fs with
  | case1 s t u v rest hb ih =>
    rw [lastCredential_of_begins hb, Option.isSome_or, Option.isSome_some, Bool.or_true]
  | case2 s t u v rest hb ih => rw [ih, lastCredential_of_not_begins hb]
  | case3 fs hshort =>
    rw [lastCredential_short hshort]
    rfl

theorem rewriteFields_of_none (region : Str) (h : lastCredential fs = none) :
    rewriteFields region fs = fs := by
  fun_induction rewriteFields region fs with
  | case1 s t u v rest hb ih =>
    have := lastCredential_of_begins hb v rest
    rw [h] at this
    cases this
  | case2 s t u v rest hb ih =>
    rw [lastCredential_of_not_begins hb] at h
    rw [ih h]
  | case3 fs hshort => rfl

/-- What is read when only the last match is written. -/
theorem lastCredential_last_taken {found : Str × Str} (hb : Begins s t u)
    (hrest : lastCredential (v :: rest) = none)
    (h : lastCredential (s :: t :: u :: v :: rest) = some found) (hne : found.2 ≠ default_region) :
    ∃ read, lastCredential (s :: t :: default_region :: v :: rest) = some read ∧
      ∀ signed : Prop, read.2 = default_region ∧ (signed → read.1 = found.1) ↔
        Settled signed ⟨s, t, u, v :: rest⟩ := by
  have hcut : ∀ x, lastCredential (s :: t :: x :: v :: rest) =
      ((credentialAt x (v :: rest)).or (credentialAt t (x :: v :: rest))).or
        (credentialAt s (t :: x :: v :: rest)) := by
    intro x
    rw [lastCredential, lastCredential, lastCredential, hrest, Option.none_or]
  have hdefault : default_region ≠ [] := by decide
  have hregion : credentialAt default_region (v :: rest) = none := rfl
  obtain ⟨k, hk, hat⟩ := credentialAt_of_begins hb v rest
  obtain ⟨k', hk', hat'⟩ := credentialAt_of_begins
    (⟨hb.1, hb.2.1, hdefault⟩ : Begins s t default_region) v rest
  have hkk : k' = k := Option.some.inj (hk'.symm.trans hk)
  subst hkk
  rw [hcut, hat] at h
  rw [hcut, hat', hregion, Option.none_or, credentialAt_congr hdefault hb.2.2 t (v :: rest)]
  simp only [Settled, hk]
  cases hu : credentialAt u (v :: rest) with
  | none =>
    rw [hu, Option.none_or] at h
    cases ht : credentialAt t (u :: v :: rest) with
    | none =>
      rw [ht] at h
      cases h
      exact ⟨_, rfl, fun _ => by simp⟩
    | some read =>
      -- the last credential is the one in the date, before and after
      rw [ht] at h
      cases h
      exact ⟨_, rfl, fun _ => by simp [hne]⟩
  | some p =>
    rw [hu] at h
    cases h
    cases ht : credentialAt t (u :: v :: rest) with
    | none => exact ⟨_, rfl, fun _ => by simp⟩
    | some read => exact ⟨_, rfl, fun _ => Iff.rfl⟩

end Read

/-- What is read of the rewritten header. -/
theorem lastCredential_rewriteFields {fs : List Str} {found : Str × Str}
    (h : lastCredential fs = some found) (hne : found.2 ≠ default_region) :
    ∃ read, lastCredential (rewriteFields default_region fs) = some read ∧
      ∀ signed : Prop, read.2 = default_region ∧ (signed → read.1 = found.1) ↔
        ∀ c ∈ lastTaken fs, Settled signed c := by
  fun_induction rewriteFields default_region fs with
  | case1 s t u v rest hb ih =>
    rw [lastTaken, if_pos hb]
    cases hrest : lastCredential (v :: rest) with
    | some p =>
      have hp : p = found := by
        rw [lastCredential, lastCredential, lastCredential, hrest] at h
        exact Option.some.inj h
      obtain ⟨read, hread, hiff⟩ := ih (hrest.trans (congrArg some hp))
      obtain ⟨c, hc⟩ := Option.isSome_iff_exists.mp
        ((lastTaken_isSome (v :: rest)).trans (by rw [hrest]; rfl))
      refine ⟨read, ?_, ?_⟩
      · rw [lastCredential, lastCredential, lastCredential, hread]
        rfl
      · rw [hc] at hiff ⊢
        exact hiff
    | none =>
      have hnone : lastTaken (v :: rest) = none := by
        rw [← Option.not_isSome_iff_eq_none, lastTaken_isSome, hrest]
        exact Bool.false_ne_true
      rw [rewriteFields_of_none default_region hrest, hnone]
      obtain ⟨read, hread, hiff⟩ := lastCredential_last_taken hb hrest h hne
      exact ⟨read, hread, fun signed => (hiff signed).trans (by simp)⟩
  | case2 s t u v rest hb ih =>
    rw [lastTaken, if_neg hb]
    rw [lastCredential_of_not_begins hb] at h
    obtain ⟨read, hread, hiff⟩ := ih h
    refine ⟨read, ?_, hiff⟩
    obtain ⟨rest', hkept⟩ := exists_rewriteFields default_region t u (v :: rest)
    rw [hkept] at hread ⊢
    rw [lastCredential_of_not_begins hb, hread]
  | case3 fs hshort =>
    rw [lastCredential_short hshort] at h
    cases h

/-! ## The text before the first colon -/

def beforeColon (s : Str) : Str := s.takeWhile fun c => c ≠ ':'

/-- A colon stands before the first region that is changed. -/
def ColonFirst : List Str → Prop
  | s :: t :: u :: v :: rest => ':' ∈ s ∨
    if Begins s t u then ':' ∈ t ∨ (u = default_region ∧ ColonFirst (v :: rest))
    else ColonFirst (t :: u :: v :: rest)
  | _ => True

section Colon
variable {s t u : Str}

theorem beforeColon_append_of_mem (h : ':' ∈ s) (t : Str) :
    beforeColon (s ++ t) = beforeColon s := by
  induction s with
  | nil => cases h
  | cons c s ih =>
    by_cases hc : c = ':'
    · simp [beforeColon, hc]
    · have hmem : ':' ∈ s := (List.mem_cons.mp h).resolve_left (Ne.symm hc)
      simpa [beforeColon, hc] using ih hmem

theorem beforeColon_append (h : ':' ∉ s) (t : Str) :
    beforeColon (s ++ t) = s ++ beforeColon t := by
  refine List.takeWhile_append_of_pos fun c hc => ?_
  rw [decide_eq_true_eq]
  rintro rfl
  exact h hc

theorem beforeColon_field (s t u : Str) :
    beforeColon (s ++ '/' :: t) = beforeColon (s ++ '/' :: u) ↔
      ':' ∈ s ∨ beforeColon t = beforeColon u := by
  have hslash : ∀ x, beforeColon ('/' :: x) = '/' :: beforeColon x := fun _ => rfl
  by_cases h : ':' ∈ s
  · exact iff_of_true (by rw [beforeColon_append_of_mem h, beforeColon_append_of_mem h]) (.inl h)
  · rw [beforeColon_append h, beforeColon_append h, hslash, hslash, List.append_cancel_left_eq,
      List.cons.injEq, eq_self_iff_true, true_and, or_iff_right h]

/-- A region that is changed can be seen, when there is no colon before it. -/
theorem beforeColon_region (hu : '/' ∉ u) (s t : Str) :
    beforeColon (default_region ++ '/' :: s) = beforeColon (u ++ '/' :: t) ↔
      u = default_region ∧ beforeColon s = beforeColon t := by
  have hcolon : ':' ∉ default_region := by decide
  have hslash : ∀ x, beforeColon ('/' :: x) = '/' :: beforeColon x := fun _ => rfl
  constructor
  · intro h
    rw [beforeColon_append hcolon, hslash] at h
    by_cases hmem : ':' ∈ u
    · rw [beforeColon_append_of_mem hmem] at h
      have hin : '/' ∈ beforeColon u := by
        rw [← h]
        simp
      exact absurd ((List.takeWhile_sublist _).subset hin) hu
    · rw [beforeColon_append hmem, hslash] at h
      obtain ⟨hregion, hrest⟩ := append_sep_inj (by decide) hu h
      exact ⟨hregion.symm, hrest⟩
  · rintro ⟨rfl, h⟩
    exact (beforeColon_field _ _ _).mpr (.inr h)

theorem beforeColon_rewriteFields {fs : List Str} (hfs : ∀ f ∈ fs, '/' ∉ f) :
    beforeColon (join '/' (rewriteFields default_region fs)) = beforeColon (join '/' fs) ↔
      ColonFirst fs := by
  fun_induction rewriteFields default_region fs with
  | case1 s t u v rest hb ih =>
    simp only [List.forall_mem_cons] at hfs
    have hrest := ih (List.forall_mem_cons.mpr hfs.2.2.2)
    have hne := rewriteFields_ne_nil default_region (List.cons_ne_nil v rest)
    rw [join_cons s (by simp), join_cons t (by simp), join_cons default_region hne,
      join_cons s (by simp), join_cons t (by simp), join_cons u (by simp), beforeColon_field,
      beforeColon_field, beforeColon_region hfs.2.2.1, hrest, ColonFirst, if_pos hb]
  | case2 s t u v rest hb ih =>
    have hrest := ih (List.forall_mem_cons.mp hfs).2
    rw [join_cons s (rewriteFields_ne_nil default_region (List.cons_ne_nil t _)),
      join_cons s (by simp), beforeColon_field, hrest, ColonFirst, if_neg hb]
  | case3 fs hshort =>
    refine iff_of_true rfl ?_
    rcases fs with - | ⟨s, - | ⟨t, - | ⟨u, - | ⟨v, rest⟩⟩⟩⟩
    iterate 4 trivial
    exact (hshort s t u v rest rfl).elim

end Colon

/-! ## The handlers -/

/-- The headers of a request. A line break ends a header, so that none is in a value. -/
structure RequestHeaders where
  headers : Headers
  no_newline : ∀ e ∈ headers, '\n' ∉ e.2

/-- `available_regions`, with the default region. -/
structure AvailableRegions where
  regions : List Str
  default_mem : default_region ∈ regions

/-- What the services rely on: the context and the header agree on the region, and the access
key of the header `headers` is still there. -/
def Consistent (available_regions : List Str) (headers : Headers) (context : Context) : Prop :=
  context.region ∈ available_regions ∧
  context.partition = get_partition (some context.region) ∧
  extract_region_from_headers context.headers = context.region ∧
  extract_access_key_id_from_auth_header context.headers =
    extract_access_key_id_from_auth_header headers

/-- The rewritten header says what it has to. -/
def Rewritable (auth : Str) : Prop :=
  (∀ c ∈ lastTaken (auth.splitOn '/'), Settled (SIGV4 <+: auth) c) ∧
  (SIGV2 <+: auth → ColonFirst (auth.splitOn '/'))

/-- The header that is written. -/
def rewrittenAuth (auth : Str) : Str :=
  join '/' (rewriteFields default_region (auth.splitOn '/'))

section Handlers
variable {available_regions : List Str} {headers : Headers} {auth : Str}

theorem consistent_of_mem (h : extract_region_from_headers headers ∈ available_regions) :
    Consistent available_regions headers (apply available_regions (enrich headers)) := by
  have happly : apply available_regions (enrich headers) = enrich headers := by
    rw [apply]
    split
    · rfl
    · exact if_neg (not_not.mpr h)
  rw [happly]
  exact ⟨h, rfl, rfl, rfl⟩

theorem sub_eq_rewrittenAuth (auth : Str) :
    rewriteRegex.sub (replacement default_region) auth = rewrittenAuth auth := by
  have hsub := @sub_join default_region (auth.splitOn '/')
    fun _ hf => Lists.not_mem_of_mem_splitOn hf
  rwa [join_splitOn] at hsub

theorem apply_of_not_mem (hne : extract_region_from_headers headers ≠ [])
    (h : extract_region_from_headers headers ∉ available_regions) (hauth : authOf headers ≠ []) :
    apply available_regions (enrich headers) =
      ⟨headers.set AUTHORIZATION (rewrittenAuth (authOf headers)), default_region,
        DEFAULT_PARTITION⟩ := by
  rw [apply, show (enrich headers).region = extract_region_from_headers headers from rfl,
    if_neg hne, if_pos h, rewrite_auth_header]
  simp only [enrich, sub_eq_rewrittenAuth]
  rw [authOf] at hauth ⊢
  cases hget : headers.get AUTHORIZATION with
  | none =>
    rw [hget] at hauth
    exact absurd rfl hauth
  | some auth =>
    rw [hget] at hauth
    exact if_neg hauth

theorem not_mem_authOf (request : RequestHeaders) : '\n' ∉ authOf request.headers := by
  rw [authOf, Headers.get]
  cases hfind : request.headers.find? fun e => ikey e.1 = ikey AUTHORIZATION with
  | none => exact List.not_mem_nil
  | some e => exact request.no_newline e (List.mem_of_find?_eq_some hfind)

theorem authOf_set (auth : Str) : authOf (headers.set AUTHORIZATION auth) = auth := by
  rw [authOf, Headers.get_set_self, Option.getD_some]

/-- The signature version is told by the first field, which is never written. -/
theorem prefix_rewriteFields {v : Str} (hv : '/' ∉ v) (region : Str) (fs : List Str) :
    v <+: join '/' (rewriteFields region fs) ↔ v <+: join '/' fs := by
  cases fs with
  | nil => exact Iff.rfl
  | cons s fs =>
    obtain ⟨fs', hkept⟩ := exists_rewriteFields_cons region s fs
    rw [hkept, prefix_join_cons hv, prefix_join_cons hv]

theorem not_mem_rewriteFields {c : Char} (hc : c ∉ default_region) {fs : List Str}
    (h : ∀ f ∈ fs, c ∉ f) : ∀ f ∈ rewriteFields default_region fs, c ∉ f := by
  fun_induction rewriteFields default_region fs with
  | case1 s t u v rest hb ih =>
    simp only [List.forall_mem_cons] at h ih ⊢
    exact ⟨h.1, h.2.1, hc, ih h.2.2.2⟩
  | case2 s t u v rest hb ih =>
    rw [List.forall_mem_cons] at h ⊢
    exact ⟨h.1, ih h.2⟩
  | case3 fs hshort => exact h

theorem not_sigv2_of_sigv4 {auth : Str} (h : SIGV4 <+: auth) : ¬ SIGV2 <+: auth := by
  intro h'
  exact absurd (List.prefix_of_prefix_length_le h' h (by decide)) (by decide)

theorem drop_beforeColon {auth auth' : Str} (h : SIGV2 <+: auth) (h' : SIGV2 <+: auth') :
    (auth'.drop SIGV2.length).takeWhile (fun c => c ≠ ':') =
      (auth.drop SIGV2.length).takeWhile (fun c => c ≠ ':') ↔
        beforeColon auth' = beforeColon auth := by
  obtain ⟨s, rfl⟩ := h
  obtain ⟨s', rfl⟩ := h'
  rw [List.drop_left, List.drop_left, beforeColon_append (by decide),
    beforeColon_append (by decide), List.append_cancel_left_eq]
  rfl

theorem splitOn_rewrittenAuth (auth : Str) :
    (rewrittenAuth auth).splitOn '/' = rewriteFields default_region (auth.splitOn '/') :=
  splitOn_join (rewriteFields_ne_nil _ (splitOn_ne_nil auth))
    (not_mem_rewriteFields (by decide) fun _ hf => Lists.not_mem_of_mem_splitOn hf)

theorem not_mem_rewrittenAuth (h : '\n' ∉ auth) : '\n' ∉ rewrittenAuth auth :=
  not_mem_join (by decide) (not_mem_rewriteFields (by decide) (not_mem_splitOn h))

theorem prefix_rewrittenAuth {v : Str} (hv : '/' ∉ v) : v <+: rewrittenAuth auth ↔ v <+: auth := by
  rw [rewrittenAuth, prefix_rewriteFields hv, join_splitOn]

/-- When the access key is kept. -/
theorem extract_access_key_id_rewrittenAuth (hline : '\n' ∉ authOf headers)
    {found read : Str × Str}
    (hfound : lastCredential ((authOf headers).splitOn '/') = some found)
    (hread : lastCredential (rewriteFields default_region ((authOf headers).splitOn '/')) =
      some read) :
    extract_access_key_id_from_auth_header
        (headers.set AUTHORIZATION (rewrittenAuth (authOf headers))) =
        extract_access_key_id_from_auth_header headers ↔
      (SIGV4 <+: authOf headers → read.1 = found.1) ∧
      (SIGV2 <+: authOf headers → ColonFirst ((authOf headers).splitOn '/')) := by
  have hnew : authOf (headers.set AUTHORIZATION (rewrittenAuth (authOf headers))) =
      rewrittenAuth (authOf headers) := authOf_set _
  rw [extract_access_key_id_eq hline,
    extract_access_key_id_eq (by rw [hnew]; exact not_mem_rewrittenAuth hline), hnew,
    splitOn_rewrittenAuth, hfound, hread]
  have hsigv4 : SIGV4 <+: rewrittenAuth (authOf headers) ↔ SIGV4 <+: authOf headers :=
    prefix_rewrittenAuth (by decide)
  have hsigv2 : SIGV2 <+: rewrittenAuth (authOf headers) ↔ SIGV2 <+: authOf headers :=
    prefix_rewrittenAuth (by decide)
  by_cases h4 : SIGV4 <+: authOf headers
  · rw [if_pos (hsigv4.mpr h4), if_pos h4, Option.map_some, Option.map_some, Option.some.injEq]
    constructor
    · exact fun h => ⟨fun _ => h, fun h2 => absurd h2 (not_sigv2_of_sigv4 h4)⟩
    · exact fun h => h.1 h4
  rw [if_neg (fun h => h4 (hsigv4.mp h)), if_neg h4]
  by_cases h2 : SIGV2 <+: authOf headers
  · have hcolon := @beforeColon_rewriteFields ((authOf headers).splitOn '/')
      fun _ hf => Lists.not_mem_of_mem_splitOn hf
    rw [join_splitOn] at hcolon
    rw [if_pos (hsigv2.mpr h2), if_pos h2, Option.some.injEq, drop_beforeColon h2 (hsigv2.mpr h2),
      rewrittenAuth, hcolon]
    exact ⟨fun h => ⟨fun h4' => absurd h4' h4, fun _ => h⟩, fun h => h.2 h2⟩
  · rw [if_neg (fun h => h2 (hsigv2.mp h)), if_neg h2]
    exact iff_of_true rfl ⟨fun h => absurd h h4, fun h => absurd h h2⟩

/-- The handlers on a header that they rewrite. -/
theorem consistent_of_not_mem (hdefault : default_region ∈ available_regions)
    (hline : '\n' ∉ authOf headers) {found : Str × Str}
    (hfound : lastCredential ((authOf headers).splitOn '/') = some found)
    (hmem : found.2 ∉ available_regions) :
    Consistent available_regions headers (apply available_regions (enrich headers)) ↔
      Rewritable (authOf headers) := by
  have hregion := extract_region_from_headers_eq hline
  rw [hfound] at hregion
  have hne : found.2 ≠ default_region := by
    intro h
    rw [h] at hmem
    exact hmem hdefault
  have hauth : authOf headers ≠ [] := by
    intro h
    rw [h] at hfound
    cases hfound
  obtain ⟨read, hread, hsettled⟩ := lastCredential_rewriteFields hfound hne
  have hnew : authOf (headers.set AUTHORIZATION (rewrittenAuth (authOf headers))) =
      rewrittenAuth (authOf headers) := authOf_set _
  have hregion' := extract_region_from_headers_eq
    (show '\n' ∉ authOf (headers.set AUTHORIZATION (rewrittenAuth (authOf headers))) by
      rw [hnew]; exact not_mem_rewrittenAuth hline)
  rw [hnew, splitOn_rewrittenAuth, hread] at hregion'
  rw [apply_of_not_mem (by rw [hregion]; exact (mem_of_lastCredential hfound).2.1)
    (by rw [hregion]; exact hmem) hauth]
  simp only [Consistent]
  rw [hregion', extract_access_key_id_rewrittenAuth hline hfound hread, Rewritable,
    ← hsettled, and_assoc]
  have hpartition : DEFAULT_PARTITION = get_partition (some default_region) := by decide
  exact ⟨fun h => h.2.2, fun h => ⟨hdefault, hpartition, h⟩⟩

end Handlers

/-- The handlers keep region, partition and access key consistent exactly on these headers. -/
theorem consistent_iff (available : AvailableRegions) (request : RequestHeaders) :
    Consistent available.regions request.headers
        (apply available.regions (enrich request.headers)) ↔
      ∀ found, lastCredential ((authOf request.headers).splitOn '/') = some found →
        found.2 ∈ available.regions ∨ Rewritable (authOf request.headers) := by
  have hline := not_mem_authOf request
  have hregion := extract_region_from_headers_eq hline
  cases hlast : lastCredential ((authOf request.headers).splitOn '/') with
  | none =>
    rw [hlast] at hregion
    refine iff_of_true (consistent_of_mem ?_) fun _ h => by cases h
    rw [hregion]
    exact available.default_mem
  | some found =>
    rw [hlast] at hregion
    by_cases hmem : found.2 ∈ available.regions
    · refine iff_of_true (consistent_of_mem ?_) fun _ h => .inl ?_
      · rw [hregion]
        exact hmem
      · rw [← Option.some.inj h]
        exact hmem
    · rw [consistent_of_not_mem available.default_mem hline hlast hmem]
      constructor
      · rintro h - -
        exact .inr h
      · exact fun h => (h found rfl).resolve_left hmem

/-- A credential in the date of another one: the fields of the first are taken, and the second
is read. -/
def overlapping : RequestHeaders where
  headers := [(AUTHORIZATION,
    "AWS4-HMAC-SHA256 Credential=x/Credential=a/b/xx-region/s3/aws4_request".toList)]
  no_newline := by decide +kernel

theorem overlapping_not_consistent : ¬ ∀ (available : AvailableRegions) (request : RequestHeaders),
    Consistent available.regions request.headers
      (apply available.regions (enrich request.headers)) := by
  intro h
  obtain ⟨-, -, hregion, -⟩ := h ⟨[default_region], List.mem_cons_self⟩ overlapping
  exact absurd hregion (by decide +kernel)

end LocalStack.Aws.Handlers.RegionRewriter
