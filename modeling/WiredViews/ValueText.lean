import WiredViews.Printable
import WiredViews.Value

namespace WiredViews

def hexDigits (width number : Nat) : List Char :=
  (List.range width).reverse.map fun place => Nat.digitChar (number / Nat.pow 16 place % 16)

-- Single quotes are the rule; double quotes are taken for a text with a single
-- quote and no double one, so that no quote inside needs an escape.
def chosenQuote (text : List Char) : Char :=
  if text.contains '\'' && !text.contains '"' then '"' else '\''

def quotedChar (quote c : Char) : List Char :=
  if c = quote || c = '\\' then ['\\', c]
  else if c = '\n' then ['\\', 'n']
  else if c = '\r' then ['\\', 'r']
  else if c = '\t' then ['\\', 't']
  else if isPrintable c then [c]
  else if c.toNat < 0x100 then '\\' :: 'x' :: hexDigits 2 c.toNat
  else if c.toNat < 0x10000 then '\\' :: 'u' :: hexDigits 4 c.toNat
  else '\\' :: 'U' :: hexDigits 8 c.toNat

def quoted (text : String) : String :=
  let quote := chosenQuote text.toList
  String.ofList (quote :: text.toList.flatMap (quotedChar quote) ++ [quote])

def jsonChar (c : Char) : List Char :=
  if c = '"' || c = '\\' then ['\\', c]
  else if c = '\n' then ['\\', 'n']
  else if c = '\r' then ['\\', 'r']
  else if c = '\t' then ['\\', 't']
  else if c = '\x08' then ['\\', 'b']
  else if c = '\x0c' then ['\\', 'f']
  else if c.toNat < 0x20 then '\\' :: 'u' :: hexDigits 4 c.toNat
  else [c]

def jsonString (text : String) : String :=
  String.ofList ('"' :: text.toList.flatMap jsonChar ++ ['"'])

namespace Value

def typeName : Value → String
  | .null => "NoneType"
  | .bool _ => "bool"
  | .int _ => "int"
  | .decimal _ => "float"
  | .str _ => "str"
  | .list _ => "list"
  | .tuple _ => "tuple"
  | .object _ => "dict"

mutual
def literal : Value → String
  | .null => "None"
  | .bool flag => if flag then "True" else "False"
  | .int number => toString number
  | .decimal number => number.text
  | .str text => quoted text
  | .list items => "[" ++ ", ".intercalate (literals items) ++ "]"
  | .tuple [item] => "(" ++ literal item ++ ",)"
  | .tuple items => "(" ++ ", ".intercalate (literals items) ++ ")"
  | .object fields => "\x7b" ++ ", ".intercalate (fieldLiterals fields) ++ "\x7d"

def literals : List Value → List String
  | [] => []
  | item :: rest => literal item :: literals rest

def fieldLiterals : List (String × Value) → List String
  | [] => []
  | (name, value) :: rest => (quoted name ++ ": " ++ literal value) :: fieldLiterals rest
end

def display : Value → String
  | .str text => text
  | value => value.literal

mutual
def json : Value → String
  | .null => "null"
  | .bool flag => if flag then "true" else "false"
  | .int number => toString number
  | .decimal number => number.text
  | .str text => jsonString text
  | .list items => "[" ++ ",".intercalate (jsons items) ++ "]"
  | .tuple items => "[" ++ ",".intercalate (jsons items) ++ "]"
  | .object fields => "\x7b" ++ ",".intercalate (fieldJsons fields) ++ "\x7d"

def jsons : List Value → List String
  | [] => []
  | item :: rest => json item :: jsons rest

def fieldJsons : List (String × Value) → List String
  | [] => []
  | (name, value) :: rest => (jsonString name ++ ":" ++ json value) :: fieldJsons rest
end

end Value
end WiredViews
