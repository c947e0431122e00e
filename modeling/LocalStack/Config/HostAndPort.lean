import LocalStack.Lib.IntText
import LocalStack.Lib.IPv6

/-! `HostAndPort` of `config.py`: the address of a server as text. -/

namespace LocalStack.Config
open LocalStack.OrderedDict LocalStack.Text LocalStack.Decimal LocalStack.IntText LocalStack.IPv6
open LocalStack.Regex

structure HostAndPort where
  host : Str
  port : Int
  deriving DecidableEq, Repr

structure ValueError where
  message : Str
  deriving DecidableEq, Repr

def is_ipv6_address (host : Str) : Bool := if host = [] then false else IPv6Address host

namespace HostAndPort

def hostGroup : Nat := 1

/-- The second group is the one around the port and its colon, which nothing reads. -/
def portGroup : Nat := 3

def ipv6Port : Pattern := .seq (.lit ":".toList) (.group portGroup (.chars digit 1 none))

/-- `r"^\[(?P<host>[^]]+)\](:(?P<port>\d+))?$"`. -/
def ipv6_pattern : Pattern :=
  .seq (.lit "[".toList) (.seq (.group hostGroup (.chars (· ≠ ']') 1 none))
    (.seq (.lit "]".toList) (.seq (.optional ipv6Port) .endOfText)))

def validate_port (port_s : Str) : Except ValueError Int :=
  match int port_s with
  | some port => .ok port
  | none => .error ⟨"specified port ".toList ++ port_s ++ " not a number".toList⟩

/-- The branch of `parse` for a text that begins with a bracket. -/
def parseBracketed (input : Str) (default_port : Int) : Except ValueError (Str × Int) :=
  match ipv6_pattern.match_ input with
  | none => .error ⟨("input looks like an IPv6 address, but is invalid. " ++
      "Should be formatted \"[ip]:port\": ").toList ++ input⟩
  | some m =>
    let host := (Dict.get m.groups hostGroup).getD []
    if is_ipv6_address host then
      match Dict.get m.groups portGroup with
      | none | some [] => .ok (host, default_port)
      | some port_s => (validate_port port_s).map fun port => (host, port)
    else .error ⟨("input looks like an IPv6 address (is enclosed in square brackets), " ++
      "but is not valid: ").toList ++ host⟩

/-- The host and the port of `parse`, before the port is validated. -/
def parseFields (input default_host : Str) (default_port : Int) :
    Except ValueError (Str × Int) :=
  if "[".toList.isPrefixOf input then parseBracketed input default_port
  else match partition ':' input with
    | (_, [], _) =>
      .ok (if stripSpace input = [] then default_host else stripSpace input, default_port)
    | (hostname, _, port_s) => (validate_port port_s).map fun port =>
      (if stripSpace hostname = [] then default_host else stripSpace hostname, port)

def parse (input default_host : Str) (default_port : Int) : Except ValueError HostAndPort :=
  match parseFields input default_host default_port with
  | .error e => .error e
  | .ok (host, port) =>
    if port < 0 ∨ port ≥ 65536 then .error ⟨"port out of range".toList⟩ else .ok ⟨host, port⟩

/-- `str` of a `HostAndPort`; its port is never `None`. -/
def host_and_port (h : HostAndPort) : Str :=
  let formatted_host := if is_ipv6_address h.host then '[' :: h.host ++ [']'] else h.host
  formatted_host ++ ':' :: intToStr h.port

/-- An IPv6 address that can stand in brackets. `IPv6Address` takes any text without `%` and `/`
for a zone, but one with a closing bracket is part of no literal. -/
structure Literal (host : Str) : Prop where
  accepted : is_ipv6_address host = true
  no_bracket : ']' ∉ host

/-- A host that is not an IPv6 address and can stand in front of a colon. -/
structure PlainHost (host : Str) : Prop where
  ne_nil : host ≠ []
  colon_not_mem : ':' ∉ host
  stripped : stripSpace host = host
  no_bracket : ∀ c ∈ host.head?, c ≠ '['

/-! ## Printing and parsing back -/

section
variable {host : Str} {port : Int}

theorem length_intToStr_le (h0 : 0 ≤ port) (h1 : port < 65536) :
    (intToStr port).length ≤ maxStrDigits := by
  obtain ⟨n, rfl⟩ := Int.eq_ofNat_of_zero_le h0
  have hn : n < 10 ^ 5 := by omega
  have hlen : (natToStr n).length ≤ 5 := (Nat.length_toDigits_le_iff (by decide) (by decide)).mpr hn
  have hstr : intToStr n = natToStr n := if_neg (by omega)
  rw [hstr]
  exact Nat.le_trans hlen (by decide)

theorem validate_port_intToStr (h0 : 0 ≤ port) (h1 : port < 65536) :
    validate_port (intToStr port) = .ok port := by
  rw [validate_port, int_intToStr (length_intToStr_le h0 h1)]

theorem parse_of_fields {input default_host : Str} {default_port : Int}
    (h : parseFields input default_host default_port = .ok (host, port)) (h0 : 0 ≤ port)
    (h1 : port < 65536) : parse input default_host default_port = .ok ⟨host, port⟩ := by
  simp only [parse, h]
  rw [if_neg (by omega)]

theorem Literal.ne_nil (h : Literal host) : host ≠ [] := by
  rintro rfl
  cases h.accepted

/-- An address, alone or with a zone identifier, is a literal. -/
theorem Literal.of_literal (h : literal host = true) : Literal host := by
  have hacc := accepted_of_literal h
  refine ⟨?_, bracket_not_mem_of_literal h⟩
  rw [is_ipv6_address, if_neg (List.ne_nil_of_mem (colon_mem_of_accepted hacc)), hacc]

theorem not_is_ipv6_address_of_plain (h : PlainHost host) : is_ipv6_address host = false := by
  rw [is_ipv6_address, if_neg h.ne_nil, Bool.eq_false_iff]
  exact fun hacc => h.colon_not_mem (colon_mem_of_accepted hacc)

theorem digit_of_mem_intToStr (h0 : 0 ≤ port) : ∀ c ∈ intToStr port, digit c = true := by
  intro c hc
  rw [intToStr, if_neg (by omega)] at hc
  have hd := isDigit_of_mem_natToStr hc
  simp only [Char.isDigit, Bool.and_eq_true, decide_eq_true_eq] at hd
  apply digit_of_asciiDigit
  rw [asciiDigit, decide_eq_true_eq]
  exact hd

theorem match_ipv6Port (h0 : 0 ≤ port) (g : Dict Nat Str) :
    (ipv6Port.run (':' :: intToStr port) g).head? = some ⟨[], g.set portGroup (intToStr port)⟩ := by
  have hchars := @Pattern.head?_chars digit 1 none [] (intToStr port) g
    (digit_of_mem_intToStr h0) (List.length_pos_iff.mpr (intToStr_ne_nil port)) (by simp) (by simp)
  have hgroup := @Pattern.head?_group _ [] _ g portGroup hchars
  rw [List.append_nil] at hgroup
  exact Pattern.head?_seq (@Pattern.head?_lit [':'] g (intToStr port)) hgroup

theorem match_ipv6_pattern (hne : host ≠ []) (hb : ']' ∉ host) (h0 : 0 ≤ port) :
    ipv6_pattern.match_ ('[' :: host ++ [']'] ++ ':' :: intToStr port) =
      some ⟨[], [(hostGroup, host), (portGroup, intToStr port)]⟩ := by
  have hchars := @Pattern.head?_chars (· ≠ ']') 1 none (']' :: ':' :: intToStr port) host []
    (ne_of_not_mem hb) (List.length_pos_iff.mpr hne) (by simp) (by simp)
  have hhost := @Pattern.head?_group _ _ _ _ hostGroup hchars
  have hport := Pattern.head?_optional (match_ipv6Port h0 [(hostGroup, host)])
  have hend : (Pattern.endOfText.run [] [(hostGroup, host), (portGroup, intToStr port)]).head? =
      some ⟨[], [(hostGroup, host), (portGroup, intToStr port)]⟩ := rfl
  have hclose := Pattern.head?_seq (@Pattern.head?_lit [']'] [(hostGroup, host)] (':' :: intToStr port))
    (Pattern.head?_seq hport hend)
  have hopen := @Pattern.head?_lit ['['] [] (host ++ ']' :: ':' :: intToStr port)
  have hall := Pattern.head?_seq hopen (Pattern.head?_seq hhost hclose)
  simpa [Pattern.match_, ipv6_pattern] using hall

theorem parse_str_literal (h : Literal host) (h0 : 0 ≤ port) (h1 : port < 65536)
    (default_host : Str) (default_port : Int) :
    parse (host_and_port ⟨host, port⟩) default_host default_port = .ok ⟨host, port⟩ := by
  have haddr := h.accepted
  have hmatch := match_ipv6_pattern h.ne_nil h.no_bracket h0
  refine parse_of_fields ?_ h0 h1
  have hstr : host_and_port ⟨host, port⟩ = '[' :: host ++ [']'] ++ ':' :: intToStr port := by
    simp only [host_and_port, haddr, if_true]
  have hopen : "[".toList.isPrefixOf ('[' :: host ++ [']'] ++ ':' :: intToStr port) = true := rfl
  rw [hstr, parseFields, if_pos hopen, parseBracketed, hmatch]
  obtain ⟨c, s, hs⟩ := List.exists_cons_of_ne_nil (intToStr_ne_nil port)
  have hport := validate_port_intToStr h0 h1
  rw [hs] at hport ⊢
  have hget : Dict.get [(hostGroup, host), (portGroup, c :: s)] hostGroup = some host := rfl
  have hget' : Dict.get [(hostGroup, host), (portGroup, c :: s)] portGroup = some (c :: s) := rfl
  simp only [hget, hget', Option.getD_some, haddr, if_true, hport]
  rfl

theorem parse_str_plain (h : PlainHost host) (h0 : 0 ≤ port) (h1 : port < 65536)
    (default_host : Str) (default_port : Int) :
    parse (host_and_port ⟨host, port⟩) default_host default_port = .ok ⟨host, port⟩ := by
  refine parse_of_fields ?_ h0 h1
  have hstr : host_and_port ⟨host, port⟩ = host ++ ':' :: intToStr port := by
    simp only [host_and_port, not_is_ipv6_address_of_plain h, Bool.false_eq_true, if_false]
  have hopen : ¬"[".toList.isPrefixOf (host ++ ':' :: intToStr port) = true := by
    obtain ⟨c, s, rfl⟩ := List.exists_cons_of_ne_nil h.ne_nil
    have hc := h.no_bracket c rfl
    simpa using hc.symm
  rw [hstr, parseFields, if_neg hopen, partition_append h.colon_not_mem]
  simp only [validate_port_intToStr h0 h1, h.stripped, if_neg h.ne_nil]
  rfl

end

/-! ## What can be parsed -/

theorem parse_ok {input default_host : Str} {default_port : Int} {r : HostAndPort}
    (h : parse input default_host default_port = .ok r) :
    parseFields input default_host default_port = .ok (r.host, r.port) ∧ 0 ≤ r.port ∧
      r.port < 65536 := by
  unfold parse at h
  split at h
  · cases h
  · rename_i host port hf
    split at h
    · cases h
    · have h0 : 0 ≤ port := by omega
      have h1 : port < 65536 := by omega
      cases h
      exact ⟨hf, h0, h1⟩

theorem parseBracketed_host {input host : Str} {default_port port : Int}
    (h : parseBracketed input default_port = .ok (host, port)) : is_ipv6_address host = true := by
  unfold parseBracketed at h
  split at h
  · cases h
  · simp only at h
    split_ifs at h with haddr
    split at h
    · cases h
      exact haddr
    · cases h
      exact haddr
    · rename_i port_s _ _
      cases hp : validate_port port_s with
      | error e =>
        rw [hp] at h
        cases h
      | ok n =>
        rw [hp] at h
        cases h
        exact haddr

theorem parseFields_host {input default_host host : Str} {default_port port : Int}
    (h : parseFields input default_host default_port = .ok (host, port)) (hd : default_host ≠ []) :
    host ≠ [] := by
  have hor : ∀ s : Str, (if stripSpace s = [] then default_host else stripSpace s) ≠ [] := by
    intro s
    split_ifs with hs
    · exact hd
    · exact hs
  unfold parseFields at h
  split at h
  · have haddr := parseBracketed_host h
    rintro rfl
    exact absurd haddr (by decide)
  · split at h
    · cases h
      exact hor input
    · rename_i hostname sep port_s _ _
      cases hp : validate_port port_s with
      | error e =>
        rw [hp] at h
        cases h
      | ok n =>
        rw [hp] at h
        cases h
        exact hor hostname

/-- **Parsing inverts printing.** It reads back what `str` wrote, and whatever it
accepts has a port in range, and a host if the default is one. -/
theorem parse_inverts_str :
    (∀ (host : Str) (port : Int), 0 ≤ port → port < 65536 →
      (Literal host ∨ PlainHost host) → ∀ (default_host : Str) (default_port : Int),
      parse (host_and_port ⟨host, port⟩) default_host default_port = .ok ⟨host, port⟩) ∧
    ∀ (input default_host : Str) (default_port : Int), 0 ≤ default_port → default_port < 65536 →
      (∃ e, parse input default_host default_port = .error e) ∨
      ∃ r, parse input default_host default_port = .ok r ∧ 0 ≤ r.port ∧ r.port < 65536 ∧
        (default_host ≠ [] → r.host ≠ []) := by
  constructor
  · intro host port h0 h1 hhost default_host default_port
    rcases hhost with h | h
    · exact parse_str_literal h h0 h1 default_host default_port
    · exact parse_str_plain h h0 h1 default_host default_port
  · intro input default_host default_port _ _
    cases hp : parse input default_host default_port with
    | error e => exact .inl ⟨e, rfl⟩
    | ok r =>
      obtain ⟨hf, h0, h1⟩ := parse_ok hp
      exact .inr ⟨r, rfl, h0, h1, parseFields_host hf⟩

theorem parse_inverts_str_local :
    parse (host_and_port ⟨"::1".toList, 4566⟩) [] 0 = .ok ⟨"::1".toList, 4566⟩ ∧
      parse (host_and_port ⟨"fe80::1%eth0:1".toList, 4566⟩) [] 0 =
        .ok ⟨"fe80::1%eth0:1".toList, 4566⟩ ∧
      parse (host_and_port ⟨"localhost".toList, 443⟩) [] 0 = .ok ⟨"localhost".toList, 443⟩ ∧
      ((∃ e, parse ":x".toList [] 4566 = .error e) ∨ ∃ r, parse ":x".toList [] 4566 = .ok r ∧
        0 ≤ r.port ∧ r.port < 65536 ∧ (([] : Str) ≠ [] → r.host ≠ [])) := by
  have hloopback : Literal "::1".toList := .of_literal (by decide)
  have hzone : Literal "fe80::1%eth0:1".toList := ⟨by decide, by decide⟩
  have hplain : PlainHost "localhost".toList := ⟨by decide, by decide, by decide, by decide⟩
  exact ⟨parse_inverts_str.1 _ 4566 (by decide) (by decide) (.inl hloopback) _ _,
    parse_inverts_str.1 _ 4566 (by decide) (by decide) (.inl hzone) _ _,
    parse_inverts_str.1 _ 443 (by decide) (by decide) (.inr hplain) _ _,
    parse_inverts_str.2 _ _ 4566 (by decide) (by decide)⟩

end HostAndPort

end LocalStack.Config
