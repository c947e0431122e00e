import LocalStack.Aws.Protocol.OpRouter

/-! Object keys of path-style S3 requests: the router strips the trailing
slashes and `S3RequestParser._parse_shape` adds them back. -/

namespace LocalStack.Aws.Protocol.S3Key
open LocalStack.Text LocalStack.Url LocalStack.OrderedDict LocalStack.Aws.Protocol.OpRouter

/-- A request with the path that Werkzeug decodes from the raw one. -/
structure Request extends OpRouter.Request where
  path : Str
  path_eq : path = '/' :: (unquote raw_path).dropWhile (· = '/')

/-! ## The parser -/

/-- `RequestParser._parse_shape` for a string that is bound to the path; a
parameter that is missing raises. -/
def parse_uri_string (uri_params : Dict Str Str) (name : Str) : Option Str :=
  uri_params.get name

/-- `S3RequestParser._parse_shape` for a string that is bound to the path;
`none` when it raises (`rpartition` does for an empty separator). -/
def parse_shape (req : Request) (name : Str) (uri_params : Dict Str Str) : Option Str :=
  if name = "Key".toList then
    match uri_params.get "Key".toList with
    | none | some [] => none
    | some key =>
      let trailing_slashes := (rpartition key req.path).2.2
      if trailing_slashes ≠ [] ∧ trailing_slashes.all (· = '/') then
        parse_uri_string (uri_params.set "Key".toList (key ++ trailing_slashes)) name
      else parse_uri_string uri_params name
  else parse_uri_string uri_params name

/-- The `Key` parameter of a request; `none` when parsing raises. -/
def parse_key (matcher : PathMatcher) (router : Router) (req : Request) : Option Str :=
  match (router.match_ matcher req.toRequest).1 with
  | none => none
  | some (_, uri_params) => parse_shape req "Key".toList uri_params

/-- What the code relies on in the path matching: the bucket of an object path
ends at the first slash and the greedy converter gives the key the rest. -/
def Greedy (matcher : PathMatcher) (router : Router) : Prop :=
  ∀ method index args bucket key, bucket ≠ [] → '/' ∉ bucket → (∃ c ∈ key, c ≠ '/') →
    matcher (router.map fun r => (r.string, r.method.map Char.toUpper))
      ('/' :: bucket ++ '/' :: key) method = .rule index args →
    args = [("Bucket".toList, bucket), ("Key".toList, key)]

/-! ## Strings of slashes -/

def AllSlashes (s : Str) : Prop := ∀ c ∈ s, c = '/'

instance (s : Str) : Decidable (AllSlashes s) := inferInstanceAs (Decidable (∀ c ∈ s, c = '/'))

theorem all_iff (s : Str) : s.all (· = '/') = true ↔ AllSlashes s := by
  simp [AllSlashes]

theorem AllSlashes.dropWhile {s : Str} (h : AllSlashes s) : s.dropWhile (· = '/') = [] :=
  List.dropWhile_eq_nil_iff.mpr fun c hc => decide_eq_true (h c hc)

theorem dropWhile_ne_nil {s : Str} (h : ¬AllSlashes s) : s.dropWhile (· = '/') ≠ [] := by
  intro hnil
  exact h fun c hc => of_decide_eq_true (List.dropWhile_eq_nil_iff.mp hnil c hc)

theorem dropWhile_append {s : Str} (h : ¬AllSlashes s) (t : Str) :
    (s ++ t).dropWhile (· = '/') = s.dropWhile (· = '/') ++ t := by
  rw [List.dropWhile_append, if_neg]
  simpa using dropWhile_ne_nil h

theorem AllSlashes.dropWhile_append {s : Str} (h : AllSlashes s) (t : Str) :
    (s ++ t).dropWhile (· = '/') = t.dropWhile (· = '/') :=
  List.dropWhile_append_of_pos fun c hc => decide_eq_true (h c hc)

theorem allSlashes_reverse (s : Str) : AllSlashes s.reverse ↔ AllSlashes s := by
  simp [AllSlashes]

theorem rstrip_append_slashes (s : Str) {w : Str} (h : AllSlashes w) :
    rstrip '/' (s ++ w) = rstrip '/' s := by
  rw [rstrip, rstrip, List.rdropWhile, List.rdropWhile, List.reverse_append,
    ((allSlashes_reverse w).mpr h).dropWhile_append]

theorem rstrip_append (s : Str) {t : Str} (h : ¬AllSlashes t) :
    rstrip '/' (s ++ t) = s ++ rstrip '/' t := by
  rw [rstrip, rstrip, List.rdropWhile, List.rdropWhile, List.reverse_append,
    dropWhile_append fun hr => h ((allSlashes_reverse t).mp hr)]
  simp

/-- The characters of a string that are not slashes. -/
def names (s : Str) : Str := s.filter (· ≠ '/')

@[simp] theorem names_append (s t : Str) : names (s ++ t) = names s ++ names t :=
  List.filter_append ..

@[simp] theorem names_cons_slash (s : Str) : names ('/' :: s) = names s := by simp [names]

theorem names_eq_nil_iff {s : Str} : names s = [] ↔ AllSlashes s := by
  simp [names, AllSlashes]

@[simp] theorem names_dropWhile (s : Str) : names (s.dropWhile (· = '/')) = names s := by
  induction s with
  | nil => rfl
  | cons c s ih =>
    by_cases hc : c = '/'
    · simp [hc, ih]
    · rw [List.dropWhile_cons_of_neg (by simpa using hc)]

theorem allSlashes_dropWhile (s : Str) : AllSlashes (s.dropWhile (· = '/')) ↔ AllSlashes s := by
  rw [← names_eq_nil_iff, names_dropWhile, names_eq_nil_iff]

theorem AllSlashes.append_comm {s t : Str} (hs : AllSlashes s) (ht : AllSlashes t) :
    s ++ t = t ++ s := by
  rw [List.eq_replicate_of_mem hs, List.eq_replicate_of_mem ht, List.replicate_append_replicate,
    List.replicate_append_replicate, Nat.add_comm]

theorem separator_slash : Separator '/' := ⟨by decide, by decide, by decide⟩

theorem unquote_append_slashes (s : Str) {w : Str} (h : AllSlashes w) :
    unquote (s ++ w) = unquote s ++ w := by
  induction w generalizing s with
  | nil => simp
  | cons c w ih =>
    obtain rfl : c = '/' := h c (by simp)
    have hw : unquote w = w := by
      simpa using ih [] fun c hc => h c (List.mem_cons_of_mem _ hc)
    rw [unquote_append_cons separator_slash, hw]

/-! ## Adding the slashes back -/

/-- What `_parse_shape` makes of a key and the decoded path. -/
def restored (key path : Str) : Str :=
  let trailing_slashes := (rpartition key path).2.2
  if trailing_slashes ≠ [] ∧ trailing_slashes.all (· = '/') then key ++ trailing_slashes else key

theorem restored_of_tail {key path w : Str} (h : (rpartition key path).2.2 = w)
    (hw : AllSlashes w) : restored key path = key ++ w := by
  rw [restored, h]
  by_cases hnil : w = []
  · simp [hnil]
  · simp [hnil, (all_iff w).mpr hw]

/-- A key with another character than slashes gets the slashes behind its last
occurrence. -/
theorem restored_eq {key w : Str} (p : Str) (hkey : ¬AllSlashes key) (hw : AllSlashes w) :
    restored key (p ++ key ++ w) = key ++ w := by
  have hne : key ≠ [] := by
    rintro rfl
    exact hkey (by simp [AllSlashes])
  rcases rpartition_spec hne (p ++ key ++ w) with ⟨before, after, hr, hs, hlast⟩ | ⟨-, hnone⟩
  · have hle : p.length ≤ before.length := hlast p w rfl
    have hlen := congrArg List.length hs
    simp only [List.length_append] at hlen
    have hafter : AllSlashes after := by
      have hsuf : after <:+ w :=
        List.suffix_of_suffix_length_le ⟨before ++ key, hs.symm⟩ ⟨p ++ key, rfl⟩ (by omega)
      exact fun c hc => hw c (hsuf.mem hc)
    -- without the slashes the two splits end at the same character
    have hstrip : p ++ rstrip '/' key = before ++ rstrip '/' key := by
      have h := congrArg (rstrip '/') hs
      rwa [rstrip_append_slashes _ hw, rstrip_append_slashes _ hafter, rstrip_append _ hkey,
        rstrip_append _ hkey] at h
    have hp : p = before := List.append_cancel_right hstrip
    have heq : after = w := by
      rw [hp] at hs
      exact (List.append_cancel_left hs).symm
    exact restored_of_tail (by rw [hr, heq]) hw
  · exact absurd rfl (hnone p w)

/-- A key the path ends with stays as it is. -/
theorem restored_end {key : Str} (p : Str) (hne : key ≠ []) : restored key (p ++ key) = key := by
  rcases rpartition_spec hne (p ++ key) with ⟨before, after, hr, hs, hlast⟩ | ⟨-, hnone⟩
  · have hle : p.length ≤ before.length := hlast p [] (by simp)
    have hlen := congrArg List.length hs
    simp only [List.length_append] at hlen
    have hnil : after = [] := List.eq_nil_of_length_eq_zero (by omega)
    simpa using restored_of_tail (by rw [hr, hnil]) (by simp [AllSlashes] : AllSlashes [])
  · exact absurd (by simp) (hnone p [])

/-- A key that is not in the path leaves the whole path as the tail. -/
theorem rpartition_missing {key path : Str} (hne : key ≠ []) (h : ∀ p u, path ≠ p ++ key ++ u) :
    (rpartition key path).2.2 = path := by
  rcases rpartition_spec hne path with ⟨before, after, -, hs, -⟩ | ⟨hr, -⟩
  · exact absurd hs (h before after)
  · rw [hr]

/-- A path of one slash is too short for a longer key. -/
theorem restored_oneSlash {key : Str} (hkey : AllSlashes key) (hne : key ≠ [])
    (hone : key ≠ ['/']) : restored key ['/'] = key ++ ['/'] := by
  have hmissing : ∀ p u, ['/'] ≠ p ++ key ++ u := by
    intro p u h
    have hlen := congrArg List.length h
    simp only [List.length_append, List.length_cons, List.length_nil] at hlen
    have hpos := List.length_pos_iff.mpr hne
    obtain ⟨c, hc⟩ := List.length_eq_one_iff.mp (by omega : key.length = 1)
    exact hone (by rw [hc, hkey c (by simp [hc])])
  exact restored_of_tail (rpartition_missing hne hmissing) (by simp [AllSlashes])

/-- With one slash in front at most, which the decoded path keeps, the key is found. -/
theorem exists_before_key {key : Str} (hne : key ≠ []) (htwo : ¬['/', '/'] <+: key) :
    ∃ p, '/' :: key.dropWhile (· = '/') = p ++ key := by
  obtain ⟨c, key, rfl⟩ := List.exists_cons_of_ne_nil hne
  by_cases hc : c = '/'
  · subst hc
    have hstop : key.dropWhile (· = '/') = key := by
      cases key with
      | nil => rfl
      | cons d key =>
        refine List.dropWhile_cons_of_neg fun hd => htwo ?_
        exact ⟨key, by rw [of_decide_eq_true hd]; rfl⟩
    exact ⟨[], by simp [hstop]⟩
  · exact ⟨['/'], by simp [hc]⟩

/-- With two slashes or more in front, of which the decoded path keeps one, the
key is not found. -/
theorem restored_doubled {key w : Str} (hkey : ¬AllSlashes key) (hw : AllSlashes w)
    (htwo : ['/', '/'] <+: key) :
    restored key ('/' :: key.dropWhile (· = '/') ++ w) = key := by
  obtain ⟨key, rfl⟩ := htwo
  have hrest : ¬AllSlashes key := fun h => hkey (by simpa [AllSlashes] using h)
  have hslashes (s : Str) : (['/', '/'] ++ s).dropWhile (· = '/') = s.dropWhile (· = '/') :=
    AllSlashes.dropWhile_append (by simp [AllSlashes]) s
  rw [hslashes]
  have hle : (key.dropWhile (· = '/')).length ≤ key.length := List.length_dropWhile_le ..
  have hmissing : ∀ p u, '/' :: key.dropWhile (· = '/') ++ w ≠ p ++ (['/', '/'] ++ key) ++ u := by
    intro p u h
    have hcount := congrArg (fun s : Str => (names s).length) h
    simp only [List.cons_append, names_cons_slash, names_append, names_dropWhile,
      names_eq_nil_iff.mpr hw, List.length_append, List.length_nil] at hcount
    have hp : AllSlashes p := names_eq_nil_iff.mp (List.eq_nil_of_length_eq_zero (by omega))
    -- both sides begin with slashes only, up to the first name
    have hcut := congrArg (List.dropWhile (· = '/')) h
    rw [List.append_assoc p, hp.dropWhile_append, List.append_assoc ['/', '/'], hslashes,
      dropWhile_append hrest, List.cons_append, List.dropWhile_cons_of_pos (by simp),
      dropWhile_append (by rwa [allSlashes_dropWhile]), List.dropWhile_idempotent] at hcut
    have hu : w = u := List.append_cancel_left hcut
    have hlen := congrArg List.length h
    simp only [hu, List.length_append, List.length_cons, List.length_nil] at hlen
    omega
  have htail := rpartition_missing (by simp) hmissing
  rw [restored, htail, if_neg]
  rintro ⟨-, hall⟩
  have hname : AllSlashes (key.dropWhile (· = '/')) := fun c hc =>
    (all_iff _).mp hall c (List.mem_cons_of_mem _ (List.mem_append_left w hc))
  exact hrest ((allSlashes_dropWhile key).mp hname)

/-! ## Keys of requests -/

/-- The key that the router returns for the part of the raw path behind the
bucket. -/
def routedKey (rest : Str) : Str := unquote (rstrip '/' rest)

/-- The literal slashes that the router takes off. -/
def strippedSlashes (rest : Str) : Str := rest.rtakeWhile (· = '/')

/-- When the key that is parsed is the decoded one. The bucket `%2F` and its
repetitions vanish from the decoded path with the slashes around them. -/
def KeyRestored (bucket rest : Str) : Prop :=
  if AllSlashes (unquote bucket) then
    if AllSlashes (routedKey rest) then
      strippedSlashes rest = if routedKey rest = ['/'] then [] else ['/']
    else strippedSlashes rest = [] ∨ ¬['/', '/'] <+: routedKey rest
  else strippedSlashes rest = [] ∨ ¬AllSlashes (routedKey rest)

theorem strippedSlashes_all (rest : Str) : AllSlashes (strippedSlashes rest) :=
  fun _ hc => by simpa using List.mem_rtakeWhile_imp hc

theorem rstrip_append_strippedSlashes (rest : Str) :
    rstrip '/' rest ++ strippedSlashes rest = rest :=
  List.rdropWhile_append_rtakeWhile ..

theorem unquote_rest (rest : Str) : unquote rest = routedKey rest ++ strippedSlashes rest := by
  rw [routedKey, ← unquote_append_slashes _ (strippedSlashes_all rest),
    rstrip_append_strippedSlashes]

theorem routedKey_ne_nil {rest : Str} (hrest : ∃ c ∈ rest, c ≠ '/') : routedKey rest ≠ [] := by
  refine unquote_ne_nil fun hnil => ?_
  obtain ⟨c, hc, hne⟩ := hrest
  exact hne (of_decide_eq_true (List.rdropWhile_eq_nil_iff.mp hnil c hc))

/-- The decoded path of an object request. -/
theorem path_of_raw {req : Request} {bucket rest : Str}
    (hraw : req.raw_path = '/' :: bucket ++ '/' :: rest) :
    req.path = '/' :: (unquote bucket ++ '/' :: (routedKey rest ++ strippedSlashes rest)).dropWhile
      (· = '/') := by
  have hslash (s : Str) : unquote ('/' :: s) = '/' :: unquote s := by
    simpa using unquote_append_cons separator_slash [] s
  rw [req.path_eq, hraw, List.cons_append, hslash, unquote_append_cons separator_slash,
    unquote_rest rest, List.dropWhile_cons_of_pos (by simp)]

instance (bucket rest : Str) : Decidable (KeyRestored bucket rest) :=
  inferInstanceAs (Decidable (ite _ _ _))

/-- What is added back is what was taken off exactly under the condition. -/
theorem restored_iff {bucket rest : Str} (hrest : ∃ c ∈ rest, c ≠ '/') :
    restored (routedKey rest) ('/' :: (unquote bucket ++
      '/' :: (routedKey rest ++ strippedSlashes rest)).dropWhile (· = '/')) = unquote rest ↔
      KeyRestored bucket rest := by
  have hw := strippedSlashes_all rest
  have hne := routedKey_ne_nil hrest
  rw [unquote_rest rest, KeyRestored]
  generalize strippedSlashes rest = w at hw ⊢
  generalize routedKey rest = key at hne ⊢
  generalize unquote bucket = bucket
  by_cases hb : AllSlashes bucket
  · have hcut : (bucket ++ '/' :: (key ++ w)).dropWhile (· = '/') =
        (key ++ w).dropWhile (· = '/') := by
      rw [hb.dropWhile_append, List.dropWhile_cons_of_pos (by simp)]
    rw [if_pos hb, hcut]
    by_cases hkey : AllSlashes key
    · -- the decoded path is one slash
      rw [if_pos hkey, hkey.dropWhile_append, hw.dropWhile]
      by_cases hone : key = ['/']
      · subst hone
        have h := @restored_end ['/'] [] (by simp)
        rw [List.nil_append] at h
        simp [h]
      · rw [restored_oneSlash hkey hne hone, if_neg hone]
        exact ⟨fun h => (List.append_cancel_left h).symm, fun h => by rw [h]⟩
    · rw [if_neg hkey, dropWhile_append hkey]
      by_cases htwo : ['/', '/'] <+: key
      · have h := restored_doubled hkey hw htwo
        rw [List.cons_append] at h
        simp [h, htwo]
      · obtain ⟨p, hp⟩ := exists_before_key hne htwo
        rw [← List.cons_append, hp, restored_eq p hkey hw]
        simp [htwo]
  · rw [if_neg hb, dropWhile_append hb]
    by_cases hkey : AllSlashes key
    · -- the path ends with the slashes of the key and those taken off
      have hp : '/' :: (bucket.dropWhile (· = '/') ++ '/' :: (key ++ w)) =
          ('/' :: bucket.dropWhile (· = '/') ++ '/' :: w) ++ key := by
        rw [hkey.append_comm hw]
        simp
      rw [hp, restored_end _ hne]
      simp [hkey]
    · have hp : '/' :: (bucket.dropWhile (· = '/') ++ '/' :: (key ++ w)) =
          ('/' :: bucket.dropWhile (· = '/') ++ ['/']) ++ key ++ w := by simp
      rw [hp, restored_eq _ hkey hw]
      simp [hkey]

theorem parse_shape_key (req : Request) (bucket : Str) {key : Str} (hne : key ≠ []) :
    parse_shape req "Key".toList [("Bucket".toList, bucket), ("Key".toList, key)] =
      some (restored key req.path) := by
  have hget (k : Str) : Dict.get [("Bucket".toList, bucket), ("Key".toList, k)] "Key".toList =
      some k := rfl
  have hset (k : Str) : Dict.set [("Bucket".toList, bucket), ("Key".toList, key)] "Key".toList k =
      [("Bucket".toList, bucket), ("Key".toList, k)] := rfl
  rw [parse_shape, if_pos rfl, hget]
  match key, hne with
  | c :: key, _ =>
    simp only [hset, parse_uri_string, hget, restored]
    split_ifs <;> rfl

theorem parse_key_eq {matcher : PathMatcher} {router : Router} {req : Request} {bucket rest : Str}
    (hbucket : bucket ≠ []) (hslash : '/' ∉ bucket) (hrest : ∃ c ∈ rest, c ≠ '/')
    (hraw : req.raw_path = '/' :: bucket ++ '/' :: rest) (hgreedy : Greedy matcher router)
    (hobject : (router.match_ matcher req.toRequest).1.isSome) :
    parse_key matcher router req = some (restored (routedKey rest) req.path) := by
  have hpath : rstrip '/' req.raw_path = '/' :: bucket ++ '/' :: rstrip '/' rest := by
    have hall : ¬AllSlashes rest := by
      obtain ⟨c, hc, hne⟩ := hrest
      exact fun h => hne (h c hc)
    have h := rstrip_append ('/' :: bucket ++ ['/']) hall
    simpa [hraw] using h
  have hname : ∃ c ∈ rstrip '/' rest, c ≠ '/' := by
    obtain ⟨c, hc, hne⟩ := hrest
    refine ⟨c, ?_, hne⟩
    rw [← rstrip_append_strippedSlashes rest] at hc
    rcases List.mem_append.mp hc with hc | hc
    · exact hc
    · exact absurd (strippedSlashes_all rest c hc) hne
  obtain ⟨⟨op, uri_params⟩, hfound⟩ := Option.isSome_iff_exists.mp hobject
  obtain ⟨index, args, hroute, rfl⟩ := Router.match_path_params hfound
  rw [routePath, hpath] at hroute
  obtain rfl := hgreedy _ index args bucket _ hbucket hslash hname hroute
  have hparams : postProcess [("Bucket".toList, bucket), ("Key".toList, rstrip '/' rest)] =
      [("Bucket".toList, unquote bucket), ("Key".toList, routedKey rest)] := rfl
  rw [parse_key, hfound, hparams]
  exact parse_shape_key req _ (routedKey_ne_nil hrest)

/-- The parsed key is the decoded one exactly when the slashes are restored. -/
theorem key_exact_iff (matcher : PathMatcher) (router : Router) (req : Request) (bucket rest : Str)
    (hbucket : bucket ≠ []) (hslash : '/' ∉ bucket) (hrest : ∃ c ∈ rest, c ≠ '/')
    (hraw : req.raw_path = '/' :: bucket ++ '/' :: rest) (hgreedy : Greedy matcher router)
    (hobject : (router.match_ matcher req.toRequest).1.isSome) :
    parse_key matcher router req = some (unquote rest) ↔ KeyRestored bucket rest := by
  rw [parse_key_eq hbucket hslash hrest hraw hgreedy hobject, Option.some_inj, path_of_raw hraw,
    restored_iff hrest]

/-! ## Sample requests -/

/-- Path matching for a map that has object rules only. -/
def objectMatcher : PathMatcher := fun _ path _ =>
  match partition '/' path.tail with
  | (bucket, [_], key) => .rule 0 [("Bucket".toList, bucket), ("Key".toList, key)]
  | _ => .notFound

theorem objectMatcher_greedy (router : Router) : Greedy objectMatcher router := by
  intro method index args bucket key _ hslash _ hmatch
  rw [objectMatcher, List.cons_append, List.tail_cons, partition_append hslash] at hmatch
  cases hmatch
  rfl

def objectService : ServiceModel where
  operations :=
    [⟨"GetObject".toList, "GET".toList, "/\x7bBucket\x7d/\x7bKey+\x7d".toList, none, false, none⟩]
  names_nodup := by decide

def getRequest (raw_path : Str) : Request where
  method := "GET".toList
  raw_path := raw_path
  args := []
  headers := []
  path := '/' :: (unquote raw_path).dropWhile (· = '/')
  path_eq := rfl

theorem key_exact_sample :
    parse_key objectMatcher (create_service_map objectService) (getRequest "/b/a%2Fa//".toList) =
      some (unquote "a%2Fa//".toList) :=
  (key_exact_iff objectMatcher (create_service_map objectService) (getRequest "/b/a%2Fa//".toList)
    "b".toList "a%2Fa//".toList (by decide) (by decide) ⟨'a', by decide, by decide⟩ rfl
    (objectMatcher_greedy _) (by decide)).mpr (by decide)

/-- A key of an encoded slash loses the slash behind it. -/
theorem encoded_slash_lost :
    Greedy objectMatcher (create_service_map objectService) ∧
    parse_key objectMatcher (create_service_map objectService) (getRequest "/b/%2F/".toList) =
      some "/".toList ∧
    unquote "%2F/".toList = "//".toList :=
  ⟨objectMatcher_greedy _, by decide, by decide⟩

end LocalStack.Aws.Protocol.S3Key
