import ObjectCache.Json.Token

namespace ObjectCache

inductive Json where
  | null
  | bool (value : Bool)
  | number (literal : List Char)
  | string (text : Option String)
  | array (items : List Json)
  | object (members : List (Option String × Json))

namespace Json

mutual

def value? : Nat → List Token → Option (Json × List Token)
  | 0, _ => none
  | _, [] => none
  | fuel + 1, token :: rest =>
      match token with
      | .null => some (.null, rest)
      | .bool b => some (.bool b, rest)
      | .number ds => some (.number ds, rest)
      | .string s => some (.string s, rest)
      | .openArray =>
          match rest with
          | .closeArray :: rest => some (.array [], rest)
          | rest => (items? fuel rest).map fun (xs, rest) => (.array xs, rest)
      | .openObject =>
          match rest with
          | .closeObject :: rest => some (.object [], rest)
          | rest => (members? fuel rest).map fun (ms, rest) => (.object ms, rest)
      | _ => none

def items? : Nat → List Token → Option (List Json × List Token)
  | 0, _ => none
  | fuel + 1, tokens => do
      let (x, rest) ← value? fuel tokens
      match rest with
      | .closeArray :: rest => return ([x], rest)
      | .comma :: rest =>
          let (xs, rest) ← items? fuel rest
          return (x :: xs, rest)
      | _ => none

def members? : Nat → List Token → Option (List (Option String × Json) × List Token)
  | 0, _ => none
  | fuel + 1, tokens =>
      match tokens with
      | .string name :: .colon :: rest => do
          let (x, rest) ← value? fuel rest
          match rest with
          | .closeObject :: rest => return ([(name, x)], rest)
          | .comma :: rest =>
              let (ms, rest) ← members? fuel rest
              return ((name, x) :: ms, rest)
          | _ => none
      | _ => none

end

def parse? (s : String) : Option Json := do
  let tokens ← Token.scan? s
  match ← value? (tokens.length + 1) tokens with
  | (x, []) => return x
  | _ => none

end Json

end ObjectCache
