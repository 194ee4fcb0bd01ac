import Wiring.Text.Shapeless

namespace Wiring.Text

def quoteChar (c : Char) : List Char :=
  -- A character between quotes. The quote and the backslash stand behind a backslash, some controls
  -- have a letter, and characters without a shape are written by their code.
  match c with
  | '"' => ['\\', '"']
  | '\\' => ['\\', '\\']
  | '\x00' => ['\\', '0']
  | '\t' => ['\\', 't']
  | '\n' => ['\\', 'n']
  | '\r' => ['\\', 'r']
  | c =>
    if isShapeless c then '\\' :: 'u' :: '\x7b' :: Nat.toDigits 16 c.toNat ++ ['\x7d']
    else [c]

def quote (text : String) : String :=
  String.ofList ('"' :: text.toList.flatMap quoteChar ++ ['"'])

end Wiring.Text
