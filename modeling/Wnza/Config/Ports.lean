/- GID: Wnza/Config/Ports
   generality: I
   source: src/config_parser.cc (NginxConfig::parse_port)
   digest: Which of the `port` statements of a configuration names the port. -/

import Wnza.Config.Printing

set_option autoImplicit false
set_option relaxedAutoImplicit false

namespace Wnza.Config.Ports

open Wnza.Http.Text
open Wnza.Config.Lexer
open Wnza.Config.Parser
open Wnza.Config.Acceptance
open Wnza.Config.Printing
open Wnza.Config.Tree

mutual

def statementPortValues : NginxConfigStatement → List Bytes
  | .mk [key, value] none => if key = lit "port" then [value] else []
  | .mk _ none => []
  | .mk _ (some block) => portValues block

/-- The values of the `port` statements without a block, at every depth, in document order. -/
def portValues : List NginxConfigStatement → List Bytes
  | [] => []
  | statement :: rest => statementPortValues statement ++ portValues rest

end

/-- The values that `parse_port` takes. -/
def inRange (v : Bytes) : Bool := 0 ≤ atoi v && atoi v ≤ 65535

/-- Decimal numerals, digits only, of a value from 0 to 65535. -/
def isNumeral (v : Bytes) : Bool := v != [] && v.all isDigit && digitsValue v ≤ 65535

theorem inRange_iff {v : Bytes} : inRange v = true ↔ 0 ≤ atoi v ∧ atoi v ≤ 65535 := by
  simp only [inRange, Bool.and_eq_true, decide_eq_true_eq]

private theorem atoi_of_isNumeral {v : Bytes} (hv : isNumeral v = true) :
    atoi v = digitsValue v := by
  simp only [isNumeral, Bool.and_eq_true, decide_eq_true_eq, List.all_eq_true] at hv
  exact atoi_of_digits hv.1.2 (by omega)

private theorem inRange_of_isNumeral {v : Bytes} (hv : isNumeral v = true) : inRange v = true := by
  rw [inRange_iff, atoi_of_isNumeral hv]
  simp only [isNumeral, Bool.and_eq_true, decide_eq_true_eq] at hv
  omega

theorem atoi_ne_of_inRange {v : Bytes} (hv : inRange v = true) : atoi v ≠ -1 := by
  rw [inRange_iff] at hv
  omega

private theorem find?_isNumeral {vs : List Bytes} {v : Bytes} (first : vs.find? inRange = some v)
    (hv : isNumeral v = true) : vs.find? isNumeral = some v := by
  obtain ⟨-, before, after, rfl, skipped⟩ := List.find?_eq_some_iff_append.mp first
  refine List.find?_eq_some_iff_append.mpr ⟨hv, before, after, rfl, ?_⟩
  intro w hw
  have out := skipped w hw
  by_contra numeral
  rw [Bool.not_eq_true, Bool.not_eq_false'] at numeral
  rw [inRange_of_isNumeral numeral] at out
  cases out

private theorem statementPort_block (tokens : List Bytes) (block : List NginxConfigStatement) :
    statementPort (.mk tokens (some block)) =
      if portOf block = -1 then none else some (portOf block) := by
  rw [statementPort]

private theorem statementPortValues_block (tokens : List Bytes)
    (block : List NginxConfigStatement) :
    statementPortValues (.mk tokens (some block)) = portValues block := by
  rw [statementPortValues]

private theorem statementPort_simple (tokens : List Bytes) :
    statementPort (.mk tokens none) =
      ((statementPortValues (.mk tokens none)).find? inRange).map atoi := by
  match tokens with
  | [] => rfl
  | [_] => rfl
  | [key, value] =>
      simp only [statementPort, statementPortValues]
      by_cases hkey : key = lit "port"
      · by_cases hvalue : inRange value = true
        · rw [if_pos ⟨hkey, inRange_iff.mp hvalue⟩, if_pos hkey,
            List.find?_cons_of_pos hvalue, Option.map_some]
        · rw [if_neg (fun h => hvalue (inRange_iff.mpr h.2)), if_pos hkey,
            List.find?_cons_of_neg hvalue, List.find?_nil, Option.map_none]
      · rw [if_neg (fun h => hkey h.1), if_neg hkey, List.find?_nil, Option.map_none]
  | _ :: _ :: _ :: _ => rfl

mutual

private theorem statementPort_eq : ∀ statement : NginxConfigStatement,
    statementPort statement = ((statementPortValues statement).find? inRange).map atoi
  | .mk tokens none => statementPort_simple tokens
  | .mk tokens (some block) => by
      rw [statementPort_block, statementPortValues_block, portOf_eq block]
      cases found : (portValues block).find? inRange with
      | none => rfl
      | some v => exact if_neg (atoi_ne_of_inRange (List.find?_some found))

private theorem portOf_eq : ∀ b : List NginxConfigStatement,
    portOf b = (((portValues b).find? inRange).map atoi).getD (-1)
  | [] => rfl
  | statement :: rest => by
      rw [portOf, portValues, statementPort_eq statement, portOf_eq rest, List.find?_append]
      cases (statementPortValues statement).find? inRange <;> rfl

end

theorem parsePort_of_inRange {config : NginxConfig} {v : Bytes}
    (first : (portValues config.statements).find? inRange = some v) :
    config.parsePort = atoi v := by
  rw [NginxConfig.parsePort, portOf_eq, first]
  rfl

theorem parsePort_of_none {config : NginxConfig}
    (none : (portValues config.statements).find? inRange = none) : config.parsePort = -1 := by
  rw [NginxConfig.parsePort, portOf_eq, none]
  rfl

/-- The port is the value of the first valid statement, and there is none if it is `-1`. -/
def FirstValid (config : NginxConfig) : Prop :=
  (∀ v, (portValues config.statements).find? isNumeral = some v →
      config.parsePort = digitsValue v) ∧
    (config.parsePort = -1 ↔ (portValues config.statements).find? isNumeral = none)

/-- The first value that is taken has to be a numeral, or to be misread as the first numeral
behind it. -/
theorem firstValid_iff (config : NginxConfig) :
    FirstValid config ↔
      ∀ v, (portValues config.statements).find? inRange = some v →
        isNumeral v = true ∨
          ∃ u, (portValues config.statements).find? isNumeral = some u ∧
            atoi v = digitsValue u := by
  constructor
  · rintro ⟨value, absent⟩ v first
    have port := parsePort_of_inRange first
    have taken : config.parsePort ≠ -1 := by
      rw [port]
      exact atoi_ne_of_inRange (List.find?_some first)
    obtain ⟨u, hu⟩ := Option.ne_none_iff_exists'.mp (fun none => taken (absent.mpr none))
    exact .inr ⟨u, hu, by rw [← port, value u hu]⟩
  · intro condition
    cases first : (portValues config.statements).find? inRange with
    | none =>
        have port := parsePort_of_none first
        have absent : (portValues config.statements).find? isNumeral = none := by
          rw [List.find?_eq_none] at first ⊢
          exact fun v hv numeral => first v hv (inRange_of_isNumeral numeral)
        refine ⟨fun v hv => ?_, iff_of_true port absent⟩
        rw [absent] at hv
        cases hv
    | some v =>
        have port := parsePort_of_inRange first
        obtain ⟨u, hu, value⟩ : ∃ u, (portValues config.statements).find? isNumeral = some u ∧
            atoi v = digitsValue u := by
          rcases condition v first with numeral | misread
          · exact ⟨v, find?_isNumeral first numeral, atoi_of_isNumeral numeral⟩
          · exact misread
        constructor
        · intro w hw
          rw [hu] at hw
          rw [← Option.some.inj hw, port, value]
        · rw [port, hu]
          exact iff_of_false (atoi_ne_of_inRange (List.find?_some first)) (by simp)

/-- A word without digits is read as zero. -/
theorem word_taken_as_port :
    parse (lit "port http; port 80;") =
        some (.ok (some ⟨[.mk [lit "port", lit "http"] none, .mk [lit "port", lit "80"] none]⟩)) ∧
      NginxConfig.parsePort
        ⟨[.mk [lit "port", lit "http"] none, .mk [lit "port", lit "80"] none]⟩ = 0 ∧
      ¬ FirstValid ⟨[.mk [lit "port", lit "http"] none, .mk [lit "port", lit "80"] none]⟩ := by
  refine ⟨rfl, rfl, ?_⟩
  intro valid
  have first : (80 : Int) = 0 := (valid.1 (lit "80") rfl).symm
  cases first

section Locations

/-- The test of `get_location_result` for a location, whatever its depth. -/
def isLocation : List Bytes → Bool
  | [word, _, _] => word == lit "location"
  | _ => false

/-- Two blocks that differ in the contents of the blocks of their locations only. -/
inductive SameOutside : List NginxConfigStatement → List NginxConfigStatement → Prop
  | nil : SameOutside [] []
  | simple {ws : List Bytes} {b c : List NginxConfigStatement} (rest : SameOutside b c) :
      SameOutside (.mk ws none :: b) (.mk ws none :: c)
  | block {ws : List Bytes} {v w b c : List NginxConfigStatement} (inner : SameOutside v w)
      (rest : SameOutside b c) : SameOutside (.mk ws (some v) :: b) (.mk ws (some w) :: c)
  | location {ws : List Bytes} {v w b c : List NginxConfigStatement}
      (hws : isLocation ws = true) (rest : SameOutside b c) :
      SameOutside (.mk ws (some v) :: b) (.mk ws (some w) :: c)

private theorem SameOutside.refl : ∀ b : List NginxConfigStatement, SameOutside b b
  | [] => .nil
  | .mk _ none :: b => .simple (refl b)
  | .mk _ (some v) :: b => .block (refl v) (refl b)

/-- What stands first: a port, or a location with a block. -/
inductive Leading
  | port (n : Int)
  | location

mutual

def statementLeading : NginxConfigStatement → Option Leading
  | .mk tokens none => (statementPort (.mk tokens none)).map .port
  | .mk tokens (some block) => if isLocation tokens then some .location else leading block

/-- The first location with a block, or the first port that is taken outside of such blocks. -/
def leading : List NginxConfigStatement → Option Leading
  | [] => none
  | statement :: rest => (statementLeading statement).or (leading rest)

end

private theorem leading_simple (ws : List Bytes) (b : List NginxConfigStatement) :
    leading (.mk ws none :: b) = ((statementPort (.mk ws none)).map .port).or (leading b) := by
  rw [leading, statementLeading]

private theorem leading_location {ws : List Bytes} (hws : isLocation ws = true)
    (v b : List NginxConfigStatement) : leading (.mk ws (some v) :: b) = some .location := by
  rw [leading, statementLeading, if_pos hws, Option.some_or]

private theorem leading_block {ws : List Bytes} (hws : isLocation ws = false)
    (v b : List NginxConfigStatement) :
    leading (.mk ws (some v) :: b) = (leading v).or (leading b) := by
  rw [leading, statementLeading, if_neg (by simp [hws])]

private theorem SameOutside.leading_eq {b c : List NginxConfigStatement} (h : SameOutside b c) :
    leading c = leading b := by
  induction h with
  | nil => rfl
  | simple _ ih => rw [leading_simple, leading_simple, ih]
  | @block ws v w b c _ _ ihInner ih =>
      cases hws : isLocation ws with
      | true => rw [leading_location hws, leading_location hws]
      | false => rw [leading_block hws, leading_block hws, ihInner, ih]
  | location hws _ _ => rw [leading_location hws, leading_location hws]

theorem ne_of_statementPort {statement : NginxConfigStatement} {n : Int}
    (h : statementPort statement = some n) : n ≠ -1 := by
  rw [statementPort_eq, Option.map_eq_some_iff] at h
  obtain ⟨v, found, rfl⟩ := h
  exact atoi_ne_of_inRange (List.find?_some found)

mutual

theorem statementLeading_eq : ∀ statement : NginxConfigStatement,
    statementLeading statement ≠ some .location →
      statementLeading statement = (statementPort statement).map .port
  | .mk _ none, _ => by rw [statementLeading]
  | .mk tokens (some block), h => by
      cases htokens : isLocation tokens with
      | true =>
          rw [statementLeading, if_pos htokens] at h
          exact absurd rfl h
      | false =>
          rw [statementLeading, if_neg (by simp [htokens])] at h ⊢
          rw [statementPort_block, leading_eq block h, apply_ite (Option.map Leading.port)]
          rfl

private theorem leading_eq : ∀ b : List NginxConfigStatement, leading b ≠ some .location →
    leading b = if portOf b = -1 then none else some (.port (portOf b))
  | [], _ => rfl
  | statement :: rest, h => by
      rw [leading] at h ⊢
      cases found : statementLeading statement with
      | none =>
          have port := statementLeading_eq statement (by simp [found])
          rw [found, eq_comm, Option.map_eq_none_iff] at port
          rw [found, Option.none_or] at h
          rw [portOf, port, Option.none_or]
          exact leading_eq rest h
      | some l =>
          rw [found, Option.some_or] at h
          have port := statementLeading_eq statement (by rwa [found])
          rw [found, eq_comm, Option.map_eq_some_iff] at port
          obtain ⟨n, port, rfl⟩ := port
          rw [portOf, port, Option.some_or]
          exact (if_neg (ne_of_statementPort port)).symm

end

private theorem portOf_eq_of_leading_eq {b c : List NginxConfigStatement}
    (same : leading c = leading b) (h : leading b ≠ some .location) : portOf c = portOf b := by
  have hb := leading_eq b h
  have hc := leading_eq c (by rwa [same])
  rw [← same, hc] at hb
  split_ifs at hb with none none' none'
  · rw [none, none']
  · exact Leading.port.inj (Option.some.inj hb)

private theorem portOf_block (ws : List Bytes) (v b : List NginxConfigStatement) :
    portOf (.mk ws (some v) :: b) = if portOf v = -1 then portOf b else portOf v := by
  rw [portOf, statementPort_block]
  split_ifs <;> rfl

/-- The trees that are derived from words. -/
def Printable (b : List NginxConfigStatement) : Prop :=
  ∃ ts, Derives ts b ∧ ∀ w, .word w ∈ ts → IsWord w

private theorem printable_of_parse {text : Bytes} {config : NginxConfig}
    (accepted : parse text = some (.ok (some config))) : Printable config.statements :=
  ⟨_, (parse_accepts_iff.mp accepted).2, isWord_of_lexes (lexes_tokens text)⟩

private theorem Printable.simple {ws : List Bytes} {b : List NginxConfigStatement} (hws : ws ≠ [])
    (words : ∀ w ∈ ws, IsWord w) (hb : Printable b) : Printable (.mk ws none :: b) := by
  obtain ⟨ts, derives, hts⟩ := hb
  refine ⟨_, .simple hws derives, ?_⟩
  intro w hw
  simp only [List.mem_append, List.mem_map, List.mem_cons, Token.word.injEq, exists_eq_right,
    reduceCtorEq, false_or] at hw
  rcases hw with hw | hw
  · exact words w hw
  · exact hts w hw

private theorem Printable.block {ws : List Bytes} {v b : List NginxConfigStatement} (hws : ws ≠ [])
    (words : ∀ w ∈ ws, IsWord w) (hv : Printable v) (hb : Printable b) :
    Printable (.mk ws (some v) :: b) := by
  obtain ⟨us, inner, hus⟩ := hv
  obtain ⟨ts, derives, hts⟩ := hb
  refine ⟨_, .block hws inner derives, ?_⟩
  intro w hw
  simp only [List.mem_append, List.mem_map, List.mem_cons, Token.word.injEq, exists_eq_right,
    reduceCtorEq, false_or] at hw
  rcases hw with hw | hw | hw
  · exact words w hw
  · exact hus w hw
  · exact hts w hw

private theorem exists_portBlock {v : Bytes} (hv : IsWord v) (taken : inRange v = true) :
    ∃ b, Printable b ∧ portOf b = atoi v := by
  have key : IsWord (lit "port") := .inl ⟨by decide, forall_mem_of_all (by decide)⟩
  refine ⟨[.mk [lit "port", v] none], .simple (by simp) ?_ ⟨[], .nil, by simp⟩, ?_⟩
  · intro w hw
    simp only [List.mem_cons, List.not_mem_nil, or_false] at hw
    rcases hw with rfl | rfl
    · exact key
    · exact hv
  · rw [portOf, statementPort, if_pos ⟨rfl, inRange_iff.mp taken⟩]

private theorem exists_sameOutside {ts : List Token} {b : List NginxConfigStatement}
    (h : Derives ts b) (words : ∀ w, .word w ∈ ts → IsWord w) (leads : leading b = some .location)
    {v : Bytes} (hv : IsWord v) (taken : inRange v = true) :
    ∃ c, Printable c ∧ SameOutside b c ∧ portOf c = atoi v := by
  induction h with
  | nil => cases leads
  | @simple ws ts b hws _ ih =>
      have head : ∀ w ∈ ws, IsWord w := fun w hw => words w (by simp [hw])
      have behind : ∀ w, .word w ∈ ts → IsWord w := fun w hw => words w (by simp [hw])
      rw [leading_simple] at leads
      cases port : statementPort (.mk ws none) with
      | some n =>
          rw [port] at leads
          cases leads
      | none =>
          rw [port, Option.map_none, Option.none_or] at leads
          obtain ⟨c, hc, same, found⟩ := ih behind leads
          refine ⟨_, .simple hws head hc, .simple same, ?_⟩
          rw [portOf, port, found]
  | @block ws vs ts d b hws inner rest ihInner ih =>
      have head : ∀ w ∈ ws, IsWord w := fun w hw => words w (by simp [hw])
      have inside : ∀ w, .word w ∈ vs → IsWord w := fun w hw => words w (by simp [hw])
      have behind : ∀ w, .word w ∈ ts → IsWord w := fun w hw => words w (by simp [hw])
      cases location : isLocation ws with
      | true =>
          obtain ⟨c, hc, found⟩ := exists_portBlock hv taken
          refine ⟨_, .block hws head hc ⟨ts, rest, behind⟩, .location location (.refl b), ?_⟩
          rw [portOf_block, found, if_neg (atoi_ne_of_inRange taken)]
      | false =>
          rw [leading_block location] at leads
          cases leadsInner : leading d with
          | some l =>
              rw [leadsInner, Option.some_or] at leads
              obtain ⟨c, hc, same, found⟩ := ihInner inside (leadsInner.trans leads)
              refine ⟨_, .block hws head hc ⟨ts, rest, behind⟩, .block same (.refl b), ?_⟩
              rw [portOf_block, found, if_neg (atoi_ne_of_inRange taken)]
          | none =>
              rw [leadsInner, Option.none_or] at leads
              obtain ⟨c, hc, same, found⟩ := ih behind leads
              have silent : portOf d = -1 := by
                have none := leading_eq d (by simp [leadsInner])
                rw [leadsInner] at none
                by_contra named
                rw [if_neg named] at none
                cases none
              refine ⟨_, .block hws head ⟨vs, inner, inside⟩ hc, .block (.refl d) same, ?_⟩
              rw [portOf_block, if_pos silent, found]

/-- Whatever the blocks of the locations hold, the port of an accepted text is the same. -/
def PortIndependent (config : NginxConfig) : Prop :=
  ∀ text config', parse text = some (.ok (some config')) →
    SameOutside config.statements config'.statements → config'.parsePort = config.parsePort

/-- A location before the first port outside of locations decides the port. -/
theorem portIndependent_iff {text : Bytes} {config : NginxConfig}
    (accepted : parse text = some (.ok (some config))) :
    PortIndependent config ↔ leading config.statements ≠ some .location := by
  constructor
  · intro independent leads
    obtain ⟨ts, derives, words⟩ := printable_of_parse accepted
    have given : ∀ v, IsWord v → inRange v = true → config.parsePort = atoi v := by
      intro v hv taken
      obtain ⟨c, ⟨us, derived, hus⟩, same, found⟩ := exists_sameOutside derives words leads hv taken
      have port := independent _ ⟨c⟩ (parse_blockToString derived hus 0) same
      rw [← port, ← found]
      rfl
    have one := given (lit "1") (.inl ⟨by decide, by simp⟩) (by decide)
    have two := given (lit "2") (.inl ⟨by decide, by simp⟩) (by decide)
    rw [one] at two
    exact absurd two (by decide)
  · intro ahead _ config' _ same
    exact portOf_eq_of_leading_eq same.leading_eq ahead

def proxyStatement (block : List NginxConfigStatement) : NginxConfigStatement :=
  .mk [lit "location", lit "\"/p/\"", lit "ProxyHandler"]
    (some (.mk [lit "dest", lit "\"http://up/\""] none :: block))

def portStatement (port : String) : NginxConfigStatement := .mk [lit "port", lit port] none

theorem portIndependent_port_first :
    parse (lit "port 80; location \"/p/\" ProxyHandler \x7b dest \"http://up/\"; port 8081; \x7d") =
        some (.ok (some ⟨[portStatement "80", proxyStatement [portStatement "8081"]]⟩)) ∧
      PortIndependent ⟨[portStatement "80", proxyStatement [portStatement "8081"]]⟩ := by
  have accepted : parse (lit
      "port 80; location \"/p/\" ProxyHandler \x7b dest \"http://up/\"; port 8081; \x7d") =
      some (.ok (some ⟨[portStatement "80", proxyStatement [portStatement "8081"]]⟩)) := rfl
  refine ⟨accepted, (portIndependent_iff accepted).mpr ?_⟩
  intro leads
  cases leads

/-- The server listens on the port of the upstream server. -/
theorem upstream_port_taken :
    parse (lit "location \"/p/\" ProxyHandler \x7b dest \"http://up/\"; port 8081; \x7d port 80;") =
        some (.ok (some ⟨[proxyStatement [portStatement "8081"], portStatement "80"]⟩)) ∧
      parse (lit "location \"/p/\" ProxyHandler \x7b dest \"http://up/\"; \x7d port 80;") =
        some (.ok (some ⟨[proxyStatement [], portStatement "80"]⟩)) ∧
      SameOutside [proxyStatement [portStatement "8081"], portStatement "80"]
        [proxyStatement [], portStatement "80"] ∧
      isNumeral (lit "80") = true ∧
      NginxConfig.parsePort ⟨[proxyStatement [portStatement "8081"], portStatement "80"]⟩ = 8081 ∧
      NginxConfig.parsePort ⟨[proxyStatement [], portStatement "80"]⟩ = 80 :=
  ⟨rfl, rfl, .location rfl (.refl _), by decide, rfl, rfl⟩

end Locations

end Wnza.Config.Ports
