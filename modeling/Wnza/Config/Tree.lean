/- GID: Wnza/Config/Tree
   generality: I
   source: include/config_parser.h, src/config_parser.cc
   digest: Parsed configurations, and the value of a directive. -/

import Wnza.Http.Text

set_option autoImplicit false
set_option relaxedAutoImplicit false

namespace Wnza.Config.Tree

open Wnza.Http.Text

/-- A statement: its tokens and the statements of its block, if it has one. -/
inductive NginxConfigStatement where
  | mk (tokens : List Bytes) (childBlock : Option (List NginxConfigStatement))

namespace NginxConfigStatement

def tokens : NginxConfigStatement → List Bytes
  | mk tokens _ => tokens

def childBlock : NginxConfigStatement → Option (List NginxConfigStatement)
  | mk _ childBlock => childBlock

end NginxConfigStatement

structure NginxConfig where
  statements : List NginxConfigStatement

/-- The second token of the first statement that begins with the key.  A statement of one
token has no second one, and the vector is read past its end. -/
def valueFromStatements (key : Bytes) : List NginxConfigStatement → Except Fault Bytes
  | [] => .ok []
  | statement :: rest =>
      match statement.tokens with
      | [] => valueFromStatements key rest
      | first :: others =>
          if first = key then
            match others with
            | [] => .error .undefinedBehaviour
            | value :: _ => .ok value
          else valueFromStatements key rest

def NginxConfig.getValueFromStatement (config : NginxConfig) (key : Bytes) : Except Fault Bytes :=
  valueFromStatements key config.statements

mutual

def statementPort : NginxConfigStatement → Option Int
  | .mk [key, value] none =>
      if key = lit "port" ∧ 0 ≤ atoi value ∧ atoi value ≤ 65535 then some (atoi value) else none
  | .mk _ none => none
  | .mk _ (some block) => if portOf block = -1 then none else some (portOf block)

def portOf : List NginxConfigStatement → Int
  | [] => -1
  | statement :: rest =>
      match statementPort statement with
      | some port => port
      | none => portOf rest

end

def NginxConfig.parsePort (config : NginxConfig) : Int := portOf config.statements

/-- `s.substr(1, s.length() - 2)`; the start is behind the end of an empty text. -/
def unquoted (s : Bytes) : Except Fault Bytes :=
  if s.length < 1 then .error .outOfRange else .ok ((s.drop 1).take (s.length - 2))

structure LocationParseResult where
  uri : Bytes
  handlerName : Bytes
  blockConfig : Option NginxConfig

def locationOf : NginxConfigStatement → Except Fault (Option LocationParseResult)
  | .mk [word, source, handlerName] block =>
      if word = lit "location" then
        match unquoted source with
        | .error e => .error e
        | .ok uri => .ok (some ⟨uri, handlerName, block.map .mk⟩)
      else .ok none
  | _ => .ok none

def locationsOf : List NginxConfigStatement → Except Fault (List LocationParseResult)
  | [] => .ok []
  | statement :: rest =>
      match locationOf statement with
      | .error e => .error e
      | .ok found =>
          match locationsOf rest with
          | .error e => .error e
          | .ok others => .ok (found.toList ++ others)

def NginxConfig.getLocationResult (config : NginxConfig) :
    Except Fault (List LocationParseResult) :=
  locationsOf config.statements

end Wnza.Config.Tree
