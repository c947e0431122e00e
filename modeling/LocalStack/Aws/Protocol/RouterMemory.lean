import LocalStack.Aws.Protocol.OpRouter
import Mathlib.Algebra.GroupWithZero.Nat

/-! What earlier requests do to the outcome of a later one. Matching only takes
values from the iterators of the rules, so a router that has seen requests is the
fresh one with some required values drained. -/

namespace LocalStack.Aws.Protocol.OpRouter
open LocalStack.Text LocalStack.OrderedDict

/-! ## What a match depends on -/

def RequiredValues.remaining : RequiredValues → List Str
  | .iterator remaining => remaining
  | .present => []

namespace RequiredArgsRule

/-- Every required query argument and header is there, with whatever value. -/
def present (rule : RequiredArgsRule) (req : Request) : Bool :=
  rule.required_query_args.all (fun p => req.hasArg p.1) &&
    rule.required_header_args.all req.hasHeader

/-- Every required value that is still to be yielded is among the values of its
query argument. -/
def valuesMet (rule : RequiredArgsRule) (req : Request) : Bool :=
  rule.required_query_args.all fun p => p.2.remaining.all (· ∈ req.getlist p.1)

/-- The number of required values that are still to be yielded. -/
def weight (rule : RequiredArgsRule) : Nat :=
  (rule.required_query_args.map (·.2.remaining.length)).sum

end RequiredArgsRule

theorem drawValues_fst (present : List Str) (values : List Str) :
    (RequiredArgsRule.drawValues present values).1 = values.all (· ∈ present) := by
  induction values with
  | nil => rfl
  | cons v values ih => by_cases hv : v ∈ present <;> simp [RequiredArgsRule.drawValues, hv, ih]

theorem drawValues_suffix (present : List Str) (values : List Str) :
    (RequiredArgsRule.drawValues present values).2 <:+ values := by
  induction values with
  | nil => exact List.suffix_rfl
  | cons v values ih =>
    by_cases hv : v ∈ present
    · simpa [RequiredArgsRule.drawValues, hv] using ih.trans (List.suffix_cons v values)
    · simp [RequiredArgsRule.drawValues, hv]

/-- A failed draw has taken a value. -/
theorem drawValues_length_lt {present : List Str} {values : List Str}
    (h : (RequiredArgsRule.drawValues present values).1 = false) :
    (RequiredArgsRule.drawValues present values).2.length < values.length := by
  induction values with
  | nil => simp [RequiredArgsRule.drawValues] at h
  | cons v values ih =>
    by_cases hv : v ∈ present
    · have h' : (RequiredArgsRule.drawValues present values).1 = false := by
        simpa [RequiredArgsRule.drawValues, hv] using h
      simpa [RequiredArgsRule.drawValues, hv] using Nat.lt_succ_of_lt (ih h')
    · simp [RequiredArgsRule.drawValues, hv]

theorem matchValues_fst (req : Request) (key : Str) (values : RequiredValues) :
    (RequiredArgsRule.matchValues req key values).1 =
      values.remaining.all (· ∈ req.getlist key) := by
  cases values with
  | iterator remaining => exact drawValues_fst _ _
  | present => rfl

theorem matchValues_suffix (req : Request) (key : Str) (values : RequiredValues) :
    (RequiredArgsRule.matchValues req key values).2.remaining <:+ values.remaining := by
  cases values with
  | iterator remaining => exact drawValues_suffix _ _
  | present => exact List.suffix_rfl

theorem matchValues_length_lt (req : Request) (key : Str) (values : RequiredValues)
    (h : (RequiredArgsRule.matchValues req key values).1 = false) :
    (RequiredArgsRule.matchValues req key values).2.remaining.length < values.remaining.length := by
  cases values with
  | iterator remaining => exact drawValues_length_lt h
  | present => simp [RequiredArgsRule.matchValues] at h

/-- Required arguments with the same keys, and values of which some may have
been taken. -/
def ArgsDrained (args args₀ : Dict Str RequiredValues) : Prop :=
  List.Forall₂ (fun p p₀ => p.1 = p₀.1 ∧ p.2.remaining <:+ p₀.2.remaining) args args₀

theorem argsDrained_refl (args : Dict Str RequiredValues) : ArgsDrained args args :=
  List.forall₂_same.mpr fun _ _ => ⟨rfl, List.suffix_rfl⟩

theorem argsDrained_trans {args args₁ args₂ : Dict Str RequiredValues}
    (h : ArgsDrained args args₁) (h' : ArgsDrained args₁ args₂) : ArgsDrained args args₂ := by
  induction h generalizing args₂ with
  | nil => exact h'
  | cons hp _ ih =>
    cases h' with
    | cons hp' h' => exact .cons ⟨hp.1.trans hp'.1, hp.2.trans hp'.2⟩ (ih h')

theorem matchQueryArgs_drained (req : Request) (args : Dict Str RequiredValues) :
    ArgsDrained (RequiredArgsRule.matchQueryArgs req args).2 args := by
  induction args with
  | nil => exact .nil
  | cons p args ih =>
    obtain ⟨key, values⟩ := p
    rw [RequiredArgsRule.matchQueryArgs]
    have hv := matchValues_suffix req key values
    split
    · rcases hm : RequiredArgsRule.matchValues req key values with ⟨ok, values'⟩
      rw [hm] at hv
      cases ok with
      | true => exact .cons ⟨rfl, hv⟩ ih
      | false => exact .cons ⟨rfl, hv⟩ (argsDrained_refl args)
    · exact argsDrained_refl _

theorem matchQueryArgs_fst (req : Request) (args : Dict Str RequiredValues) :
    (RequiredArgsRule.matchQueryArgs req args).1 =
      (args.all (fun p => req.hasArg p.1) &&
        args.all fun p => p.2.remaining.all (· ∈ req.getlist p.1)) := by
  induction args with
  | nil => rfl
  | cons p args ih =>
    obtain ⟨key, values⟩ := p
    rw [RequiredArgsRule.matchQueryArgs, List.all_cons, List.all_cons,
      ← matchValues_fst req key values]
    cases hk : req.hasArg key with
    | false => simp
    | true =>
      rcases hm : RequiredArgsRule.matchValues req key values with ⟨ok, values'⟩
      cases ok <;> simp [ih]

theorem argsDrained_length_le {args args₀ : Dict Str RequiredValues} (h : ArgsDrained args args₀) :
    (args.map (·.2.remaining.length)).sum ≤ (args₀.map (·.2.remaining.length)).sum := by
  induction h with
  | nil => exact Nat.le_refl _
  | cons hp _ ih => simpa using Nat.add_le_add hp.2.length_le ih

/-- Arguments that are all there and do not match lose a value. -/
theorem matchQueryArgs_length_lt (req : Request) {args : Dict Str RequiredValues}
    (hkeys : args.all (fun p => req.hasArg p.1) = true)
    (h : (RequiredArgsRule.matchQueryArgs req args).1 = false) :
    (((RequiredArgsRule.matchQueryArgs req args).2).map (·.2.remaining.length)).sum <
      (args.map (·.2.remaining.length)).sum := by
  induction args with
  | nil => simp [RequiredArgsRule.matchQueryArgs] at h
  | cons p args ih =>
    obtain ⟨key, values⟩ := p
    rw [List.all_cons, Bool.and_eq_true] at hkeys
    have hle := (matchValues_suffix req key values).length_le
    rw [RequiredArgsRule.matchQueryArgs, if_pos hkeys.1] at h ⊢
    rcases hm : RequiredArgsRule.matchValues req key values with ⟨ok, values'⟩
    rw [hm] at h hle
    cases ok with
    | true => simpa using Nat.add_lt_add_of_le_of_lt hle (ih hkeys.2 h)
    | false =>
      have hlt := matchValues_length_lt req key values (by rw [hm])
      rw [hm] at hlt
      simpa using hlt

/-! ## Drained rules -/

/-- The rule `r₀` after some of its required values have been taken. -/
structure Drained (r r₀ : RequiredArgsRule) : Prop where
  endpoint : r.endpoint = r₀.endpoint
  header_args : r.required_header_args = r₀.required_header_args
  query_args : ArgsDrained r.required_query_args r₀.required_query_args

theorem drained_refl (r : RequiredArgsRule) : Drained r r := ⟨rfl, rfl, argsDrained_refl _⟩

theorem drained_trans {r r₁ r₂ : RequiredArgsRule} (h : Drained r r₁) (h' : Drained r₁ r₂) :
    Drained r r₂ :=
  ⟨h.endpoint.trans h'.endpoint, h.header_args.trans h'.header_args,
    argsDrained_trans h.query_args h'.query_args⟩

theorem matches_fst (r : RequiredArgsRule) (req : Request) :
    (r.matches_ req).1 = (r.present req && r.valuesMet req) := by
  have h := matchQueryArgs_fst req r.required_query_args
  unfold RequiredArgsRule.matches_ RequiredArgsRule.present RequiredArgsRule.valuesMet
  rcases hm : RequiredArgsRule.matchQueryArgs req r.required_query_args with ⟨ok, args⟩
  rw [hm] at h
  cases ok with
  | true =>
    obtain ⟨hk, hv⟩ := Bool.and_eq_true_iff.mp h.symm
    simp only [hk, hv, Bool.true_and, Bool.and_true]
  | false =>
    rw [Bool.and_right_comm, ← h, Bool.false_and]

theorem matches_drained (r : RequiredArgsRule) (req : Request) :
    Drained (r.matches_ req).2 r := by
  have h := matchQueryArgs_drained req r.required_query_args
  unfold RequiredArgsRule.matches_
  rcases hm : RequiredArgsRule.matchQueryArgs req r.required_query_args with ⟨ok, args⟩
  rw [hm] at h
  cases ok <;> exact ⟨rfl, rfl, h⟩

theorem present_of_drained {r r₀ : RequiredArgsRule} (h : Drained r r₀) (req : Request) :
    r.present req = r₀.present req := by
  have hkeys : ∀ {args args₀}, ArgsDrained args args₀ →
      args.all (fun p => req.hasArg p.1) = args₀.all (fun p => req.hasArg p.1) := by
    intro args args₀ ha
    induction ha with
    | nil => rfl
    | cons hp _ ih => simp only [List.all_cons, hp.1, ih]
  rw [RequiredArgsRule.present, RequiredArgsRule.present, h.header_args, hkeys h.query_args]

theorem valuesMet_of_drained {r r₀ : RequiredArgsRule} (h : Drained r r₀) {req : Request}
    (h₀ : r₀.valuesMet req = true) : r.valuesMet req = true := by
  have hvalues : ∀ {args args₀}, ArgsDrained args args₀ →
      args₀.all (fun p => p.2.remaining.all (· ∈ req.getlist p.1)) = true →
      args.all (fun p => p.2.remaining.all (· ∈ req.getlist p.1)) = true := by
    intro args args₀ ha
    induction ha with
    | nil => exact id
    | cons hp _ ih =>
      simp only [List.all_cons, Bool.and_eq_true, hp.1]
      rintro ⟨hv, hrest⟩
      refine ⟨?_, ih hrest⟩
      rw [List.all_eq_true] at hv ⊢
      exact fun v hm => hv v (hp.2.subset hm)
  exact hvalues h.query_args h₀

theorem weight_le_of_drained {r r₀ : RequiredArgsRule} (h : Drained r r₀) :
    r.weight ≤ r₀.weight :=
  argsDrained_length_le h.query_args

/-- A rule whose arguments are all there loses a value by not matching. -/
theorem weight_lt_of_failed {r : RequiredArgsRule} {req : Request} (hp : r.present req = true)
    (h : (r.matches_ req).1 = false) : (r.matches_ req).2.weight < r.weight := by
  obtain ⟨hkeys, hheaders⟩ := Bool.and_eq_true_iff.mp hp
  have hlt := fun h => matchQueryArgs_length_lt req hkeys h
  unfold RequiredArgsRule.matches_ RequiredArgsRule.weight at *
  rcases hm : RequiredArgsRule.matchQueryArgs req r.required_query_args with ⟨ok, args⟩
  rw [hm] at h hlt
  cases ok with
  | true => simp [hheaders] at h
  | false => exact hlt rfl

/-! ## Lists of rules -/

abbrev AllDrained (rules rules₀ : List RequiredArgsRule) : Prop :=
  List.Forall₂ Drained rules rules₀

theorem allDrained_refl (rules : List RequiredArgsRule) : AllDrained rules rules :=
  List.forall₂_same.mpr fun r _ => drained_refl r

theorem allDrained_trans {rules rules₁ rules₂ : List RequiredArgsRule}
    (h : AllDrained rules rules₁) (h' : AllDrained rules₁ rules₂) : AllDrained rules rules₂ := by
  induction h generalizing rules₂ with
  | nil => exact h'
  | cons hr _ ih =>
    cases h' with
    | cons hr' h' => exact .cons (drained_trans hr hr') (ih h')

theorem match_request_cons (req : Request) (r : RequiredArgsRule) (rules : List RequiredArgsRule) :
    match_request req (r :: rules) =
      if (r.matches_ req).1 then (some r.endpoint, (r.matches_ req).2 :: rules)
      else ((match_request req rules).1, (r.matches_ req).2 :: (match_request req rules).2) := by
  have he := (matches_drained r req).endpoint
  rw [match_request]
  rcases hm : r.matches_ req with ⟨ok, r'⟩
  rw [hm] at he
  cases ok with
  | true => simp [← he]
  | false => simp

theorem match_request_drained (req : Request) (rules : List RequiredArgsRule) :
    AllDrained (match_request req rules).2 rules := by
  induction rules with
  | nil => exact .nil
  | cons r rules ih =>
    rw [match_request_cons]
    split
    · exact .cons (matches_drained r req) (allDrained_refl rules)
    · exact .cons (matches_drained r req) ih

theorem match_request_fst (req : Request) (rules : List RequiredArgsRule) :
    (match_request req rules).1 =
      (rules.find? fun r => r.present req && r.valuesMet req).map (·.endpoint) := by
  induction rules with
  | nil => rfl
  | cons r rules ih =>
    rw [match_request_cons, matches_fst, List.find?_cons]
    cases r.present req && r.valuesMet req <;> simp [ih]

/-- Where the first rule whose arguments are all there also finds its values, it
is the one that matches, whatever values the rules have left. -/
theorem match_request_of_presence {rules rules₀ : List RequiredArgsRule} {req : Request}
    (h : AllDrained rules rules₀)
    (hok : ∀ r, rules₀.find? (·.present req) = some r → r.valuesMet req = true) :
    (match_request req rules).1 = (rules₀.find? (·.present req)).map (·.endpoint) := by
  induction h with
  | nil => rfl
  | @cons r r₀ rules rules₀ hr _ ih =>
    rw [match_request_cons, matches_fst, present_of_drained hr req]
    rw [List.find?_cons] at hok ⊢
    cases hp : r₀.present req with
    | true =>
      rw [hp] at hok
      simp [valuesMet_of_drained hr (hok r₀ rfl), hr.endpoint]
    | false =>
      rw [hp] at hok
      simpa using ih hok

def totalWeight (rules : List RequiredArgsRule) : Nat := (rules.map (·.weight)).sum

theorem totalWeight_le_of_drained {rules rules₀ : List RequiredArgsRule}
    (h : AllDrained rules rules₀) : totalWeight rules ≤ totalWeight rules₀ := by
  induction h with
  | nil => exact Nat.le_refl _
  | cons hr _ ih => simpa [totalWeight] using Nat.add_le_add (weight_le_of_drained hr) ih

/-- Either the first rule whose arguments are all there matches, or the rules
have fewer values left. -/
theorem match_request_progress {rules rules₀ : List RequiredArgsRule} {req : Request}
    {r₀ : RequiredArgsRule} (h : AllDrained rules rules₀)
    (hfirst : rules₀.find? (·.present req) = some r₀) :
    (match_request req rules).1 = some r₀.endpoint ∨
      totalWeight (match_request req rules).2 < totalWeight rules := by
  induction h with
  | nil => simp at hfirst
  | @cons r s rules rules₀ hr _ ih =>
    rw [List.find?_cons] at hfirst
    rw [match_request_cons]
    have hpres := present_of_drained hr req
    have hle := weight_le_of_drained (matches_drained r req)
    cases hp : s.present req with
    | true =>
      rw [hp] at hfirst hpres
      cases hfirst
      cases hm : (r.matches_ req).1 with
      | true => exact Or.inl (by simp [hr.endpoint])
      | false =>
        have hlt := weight_lt_of_failed hpres hm
        have hrest := totalWeight_le_of_drained (match_request_drained req rules)
        exact Or.inr (by simpa [totalWeight] using Nat.add_lt_add_of_lt_of_le hlt hrest)
    | false =>
      rw [hp] at hfirst
      have hm : (r.matches_ req).1 = false := by rw [matches_fst, hpres, hp, Bool.false_and]
      simp only [hm, Bool.false_eq_true, if_false]
      refine (ih hfirst).imp id fun hlt => ?_
      simpa [totalWeight] using Nat.add_lt_add_of_le_of_lt hle hlt

/-- The same request repeated often enough reaches the first rule whose
arguments are all there. -/
theorem exists_repeat_matches {rules₀ : List RequiredArgsRule} {req : Request}
    {r₀ : RequiredArgsRule} (hfirst : rules₀.find? (·.present req) = some r₀) :
    ∃ k, (match_request req ((fun rs => (match_request req rs).2)^[k] rules₀)).1 =
      some r₀.endpoint := by
  have key : ∀ n rules, AllDrained rules rules₀ → totalWeight rules = n →
      ∃ k, (match_request req ((fun rs => (match_request req rs).2)^[k] rules)).1 =
        some r₀.endpoint := by
    intro n
    induction n using Nat.strong_induction_on with
    | _ n ih =>
      intro rules hd hn
      rcases match_request_progress hd hfirst with hm | hlt
      · exact ⟨0, hm⟩
      · have hd' := allDrained_trans (match_request_drained req rules) hd
        obtain ⟨k, hk⟩ := ih _ (hn ▸ hlt) _ hd' rfl
        exact ⟨k + 1, hk⟩
  exact key _ rules₀ (allDrained_refl rules₀) rfl

/-- A rule that does not find its values is not the one that a fresh list of
rules with distinct operations matches. -/
theorem match_request_ne_of_unmet {rules : List RequiredArgsRule} {req : Request}
    {r₀ : RequiredArgsRule} (hnd : (rules.map (·.endpoint.name)).Nodup) (hmem : r₀ ∈ rules)
    (hunmet : r₀.valuesMet req ≠ true) : (match_request req rules).1 ≠ some r₀.endpoint := by
  rw [match_request_fst]
  intro h
  obtain ⟨r, hr, he⟩ := Option.map_eq_some_iff.mp h
  have hr' := List.find?_some hr
  have hsame : r = r₀ :=
    List.inj_on_of_nodup_map hnd (List.mem_of_find?_eq_some hr) hmem (by rw [he])
  rw [hsame] at hr'
  exact hunmet (Bool.and_eq_true_iff.mp hr').2

/-! ## Routers over a history of requests -/

def Endpoint.Drained : Endpoint → Endpoint → Prop
  | .operation op, .operation op₀ => op = op₀
  | .rules rs, .rules rs₀ => AllDrained rs rs₀
  | _, _ => False

theorem endpoint_drained_refl (e : Endpoint) : e.Drained e := by
  cases e with
  | operation op => rfl
  | rules rules => exact allDrained_refl rules

theorem endpoint_drained_trans {e e₁ e₂ : Endpoint} (h : e.Drained e₁) (h' : e₁.Drained e₂) :
    e.Drained e₂ := by
  cases e <;> cases e₁ <;> cases e₂ <;> simp only [Endpoint.Drained] at h h' ⊢
  · exact h.trans h'
  · exact allDrained_trans h h'

abbrev RouterDrained (router router₀ : Router) : Prop :=
  List.Forall₂ (fun r r₀ : Rule =>
    r.string = r₀.string ∧ r.method = r₀.method ∧ r.endpoint.Drained r₀.endpoint) router router₀

theorem routerDrained_refl (router : Router) : RouterDrained router router :=
  List.forall₂_same.mpr fun r _ => ⟨rfl, rfl, endpoint_drained_refl r.endpoint⟩

theorem routerDrained_set {router router₀ : Router} {index : Nat} {r : Rule}
    (h : RouterDrained router router₀)
    (hr : ∀ r₁, router[index]? = some r₁ →
      r.string = r₁.string ∧ r.method = r₁.method ∧ r.endpoint.Drained r₁.endpoint) :
    RouterDrained (router.set index r) router₀ := by
  induction h generalizing index with
  | nil => exact .nil
  | cons hp h ih =>
    cases index with
    | zero =>
      have hr' := hr _ rfl
      exact .cons ⟨hr'.1.trans hp.1, hr'.2.1.trans hp.2.1,
        endpoint_drained_trans hr'.2.2 hp.2.2⟩ h
    | succ index => exact .cons hp (ih hr)

theorem routerDrained_get {router router₀ : Router} (h : RouterDrained router router₀)
    {index : Nat} {r₀ : Rule} (h₀ : router₀[index]? = some r₀) :
    ∃ r, router[index]? = some r ∧ r.endpoint.Drained r₀.endpoint := by
  induction h generalizing index with
  | nil => simp at h₀
  | cons hr _ ih =>
    cases index with
    | zero =>
      cases h₀
      exact ⟨_, rfl, hr.2.2⟩
    | succ index => exact ih h₀

theorem routerDrained_get_none {router router₀ : Router} (h : RouterDrained router router₀)
    {index : Nat} (h₀ : router₀[index]? = none) : router[index]? = none := by
  rw [List.getElem?_eq_none_iff] at h₀ ⊢
  exact h.length_eq ▸ h₀

/-- The path match does not look at the required values. -/
theorem routePath_of_drained {router router₀ : Router} (h : RouterDrained router router₀)
    (matcher : PathMatcher) (req : Request) :
    routePath matcher router req = routePath matcher router₀ req := by
  have hmap : router.map (fun r => (r.string, r.method.map Char.toUpper)) =
      router₀.map (fun r => (r.string, r.method.map Char.toUpper)) := by
    induction h with
    | nil => rfl
    | cons hp _ ih => simp [hp.1, hp.2.1, ih]
  rw [routePath, routePath, hmap]

/-- The fine-grained rules among which a request is decided; empty when its path
match leads to no rule or to a plain one. -/
def candidates (matcher : PathMatcher) (router : Router) (req : Request) :
    List RequiredArgsRule :=
  match routePath matcher router req with
  | .rule index _ =>
    match router[index]? with
    | some ⟨_, _, .rules rules⟩ => rules
    | _ => []
  | _ => []

/-- Either the request is decided by its path match alone, in every router
drained from the same one, or by `match_request` on the candidates. -/
theorem match_cases (matcher : PathMatcher) (router₀ : Router) (req : Request) :
    (∃ o, candidates matcher router₀ req = [] ∧
      ∀ router, RouterDrained router router₀ → router.match_ matcher req = (o, router)) ∨
    ∃ index args, ∀ router, RouterDrained router router₀ → ∃ string method,
      router[index]? = some ⟨string, method, .rules (candidates matcher router req)⟩ ∧
      AllDrained (candidates matcher router req) (candidates matcher router₀ req) ∧
      router.match_ matcher req =
        ((match_request req (candidates matcher router req)).1.map fun op =>
            (op, postProcess args),
          router.set index ⟨string, method,
            .rules (match_request req (candidates matcher router req)).2⟩) := by
  cases hp : routePath matcher router₀ req with
  | notFound | methodNotAllowed =>
    refine Or.inl ⟨none, by simp [candidates, hp], fun router h => ?_⟩
    simp [Router.match_, routePath_of_drained h, hp]
  | rule index args =>
    rcases hi : router₀[index]? with _ | ⟨s₀, m₀, op | rules₀⟩
    · refine Or.inl ⟨none, by simp [candidates, hp, hi], fun router h => ?_⟩
      have hg := routerDrained_get_none h hi
      simp [Router.match_, routePath_of_drained h, hp, hg]
    · refine Or.inl ⟨some (op, postProcess args), by simp [candidates, hp, hi], fun router h => ?_⟩
      obtain ⟨⟨s, m, op' | rules⟩, hg, he⟩ := routerDrained_get h hi
      · cases he
        simp [Router.match_, routePath_of_drained h, hp, hg]
      · exact he.elim
    · refine Or.inr ⟨index, args, fun router h => ?_⟩
      obtain ⟨⟨s, m, op' | rules⟩, hg, he⟩ := routerDrained_get h hi
      · exact he.elim
      · have hc : candidates matcher router req = rules := by
          simp [candidates, routePath_of_drained h, hp, hg]
        have hc₀ : candidates matcher router₀ req = rules₀ := by simp [candidates, hp, hi]
        rw [hc, hc₀]
        exact ⟨s, m, hg, he, by simp [Router.match_, routePath_of_drained h, hp, hg]⟩

theorem match_drained (matcher : PathMatcher) {router router₀ : Router}
    (h : RouterDrained router router₀) (req : Request) :
    RouterDrained (router.match_ matcher req).2 router₀ := by
  rcases match_cases matcher router₀ req with ⟨o, -, hm⟩ | ⟨index, args, hm⟩
  · rw [hm router h]; exact h
  · obtain ⟨string, method, hget, _, he⟩ := hm router h
    rw [he]
    refine routerDrained_set h fun r₁ hr₁ => ?_
    rw [hget] at hr₁
    cases hr₁
    exact ⟨rfl, rfl, match_request_drained req _⟩

theorem after_drained {matcher : PathMatcher} {router router₀ : Router}
    (h : RouterDrained router router₀) (history : List Request) :
    RouterDrained (router.after matcher history) router₀ := by
  induction history generalizing router with
  | nil => exact h
  | cons req history ih => exact ih (match_drained _ h req)

/-! ## The operations of a group -/

/-- The operations of a group are among those of the service, in their order. -/
theorem pathIndex_sublist (ops : List OperationModel) :
    ∀ p ∈ pathIndex ops, (p.2.map (·.operation)).Sublist ops := by
  intro p hp
  have hops : ∀ l : List OperationModel, l.map (fun op => (from_operation op).operation) = l :=
    List.map_id
  rw [group_of_mem_pathIndex hp, List.map_map, Function.comp_def, hops]
  exact List.filter_sublist

/-- No two rules of a group are for the same operation. -/
theorem candidates_nodup (matcher : PathMatcher) (service : ServiceModel) (req : Request) :
    ((candidates matcher (create_service_map service) req).map (·.endpoint.name)).Nodup := by
  unfold candidates
  split
  · split
    · rename_i hget
      obtain ⟨p, hp, he⟩ := List.mem_map.mp (List.mem_of_getElem? hget)
      rw [ruleOf] at he
      simp only [Rule.mk.injEq] at he
      obtain ⟨-, -, he⟩ := he
      split at he
      · cases he
      · cases he
        have hsub : (p.2.map (·.operation.name)).Sublist (service.operations.map (·.name)) := by
          simpa [Function.comp_def] using (pathIndex_sublist _ p hp).map (·.name)
        refine ((List.perm_insertionSort _ _).map _).nodup_iff.mpr ?_
        simpa [RequiredArgsRule.new, Function.comp_def] using service.names_nodup.sublist hsub
    · simp
  · simp

/-! ## Memory -/

/-- Among the candidates of the request, the first rule in score order whose
required arguments are all there also finds its required values. -/
def PresenceDecides (matcher : PathMatcher) (service : ServiceModel) (req : Request) : Prop :=
  ∀ r, (candidates matcher (create_service_map service) req).find? (·.present req) = some r →
    r.valuesMet req = true

theorem candidates_match (matcher : PathMatcher) (router : Router) (req : Request) :
    candidates matcher (router.match_ matcher req).2 req =
      (match_request req (candidates matcher router req)).2 := by
  have hd := match_drained matcher (routerDrained_refl router) req
  have hpath := routePath_of_drained hd matcher req
  cases hp : routePath matcher router req with
  | notFound | methodNotAllowed => simp [candidates, hpath, hp, match_request]
  | rule index args =>
    rcases hi : router[index]? with _ | ⟨s, m, op | rules⟩
    · have hm : (router.match_ matcher req).2 = router := by simp [Router.match_, hp, hi]
      simp [candidates, hm, hp, hi, match_request]
    · have hm : (router.match_ matcher req).2 = router := by simp [Router.match_, hp, hi]
      simp [candidates, hm, hp, hi, match_request]
    · have hm : (router.match_ matcher req).2 =
          router.set index ⟨s, m, .rules (match_request req rules).2⟩ := by
        simp [Router.match_, hp, hi]
      have hlt : index < router.length := (List.getElem?_eq_some_iff.mp hi).1
      have hget : (router.set index ⟨s, m, .rules (match_request req rules).2⟩)[index]? =
          some ⟨s, m, .rules (match_request req rules).2⟩ := by
        simp [hlt]
      rw [hm] at hpath
      simp [candidates, hm, hpath, hp, hi, hget]

/-- The same request repeated `k` times drains its candidates `k` times. -/
theorem candidates_after_replicate (matcher : PathMatcher) (router : Router) (req : Request)
    (k : Nat) :
    candidates matcher (router.after matcher (List.replicate k req)) req =
      (fun rs => (match_request req rs).2)^[k] (candidates matcher router req) := by
  induction k generalizing router with
  | zero => rfl
  | succ k ih =>
    rw [List.replicate_succ, Function.iterate_succ_apply, ← candidates_match]
    exact ih _

/-- **Routing has no memory, exactly where presence decides.** Whatever requests
came before, a request has the outcome it has on a fresh router, if and only if
the first of its candidates that it has all arguments for also finds its values. -/
theorem match_after_eq_fresh_iff (matcher : PathMatcher) (service : ServiceModel)
    (req : Request) :
    (∀ history, (((create_service_map service).after matcher history).match_ matcher req).1 =
      ((create_service_map service).match_ matcher req).1) ↔
      PresenceDecides matcher service req := by
  have hrefl := routerDrained_refl (create_service_map service)
  rcases match_cases matcher (create_service_map service) req with
    ⟨o, hempty, hm⟩ | ⟨index, args, hm⟩
  · refine iff_of_true (fun history => ?_) (fun r hr => ?_)
    · rw [hm _ (after_drained hrefl history), hm _ hrefl]
    · simp [hempty] at hr
  · obtain ⟨_, _, _, _, hfresh⟩ := hm _ hrefl
    constructor
    · intro h r hr
      by_contra hunmet
      -- the request repeated until the iterators of `r` are exhausted
      obtain ⟨k, hk⟩ := exists_repeat_matches hr
      obtain ⟨_, _, _, _, hafter⟩ := hm _ (after_drained hrefl (List.replicate k req))
      have hne := match_request_ne_of_unmet (candidates_nodup matcher service req)
        (List.mem_of_find?_eq_some hr) hunmet
      have hsame := h (List.replicate k req)
      rw [hafter, hfresh, candidates_after_replicate, hk] at hsame
      cases hf : (match_request req (candidates matcher (create_service_map service) req)).1 with
      | none => simp [hf] at hsame
      | some op =>
        simp only [hf, Option.map_some, Option.some.injEq, Prod.mk.injEq, and_true] at hsame
        exact hne (by rw [hf, hsame])
    · intro h history
      obtain ⟨_, _, _, hd, hafter⟩ := hm _ (after_drained hrefl history)
      rw [hafter, hfresh]
      simp only
      rw [match_request_of_presence hd h, match_request_of_presence (allDrained_refl _) h]

/-- Two operations that differ by a constant query argument only. -/
def apiKeys : ServiceModel where
  operations := [
    ⟨"CreateApiKey".toList, "POST".toList, "/apikeys".toList, none, false, none⟩,
    ⟨"ImportApiKeys".toList, "POST".toList, "/apikeys?mode=import".toList, none, false, none⟩]
  names_nodup := by decide

/-- `POST /apikeys?mode=x` is CreateApiKey the first time, ImportApiKeys the second. -/
theorem match_remembers :
    let req : Request :=
      ⟨"POST".toList, "/apikeys".toList, [("mode".toList, "x".toList)], []⟩
    let matcher : PathMatcher := fun _ _ _ => .rule 0 []
    let router := create_service_map apiKeys
    (router.match_ matcher req).1.map (·.1.name) = some "CreateApiKey".toList ∧
      ((router.after matcher [req]).match_ matcher req).1.map (·.1.name) =
        some "ImportApiKeys".toList := by
  decide

end LocalStack.Aws.Protocol.OpRouter
