/-!
# Quoted text

How text stands between double quotes in a program: `escape` writes it, `unquote?` reads it back.
-/

namespace CoolTyping.Quoted

/-- The character that a backslash followed by `c` stands for. -/
def unescape (c : Char) : Char :=
  if c = 'n' then '\n'
  else if c = 't' then '\t'
  else if c = 'b' then '\x08'
  else if c = 'f' then '\x0c'
  else c

/-- Writes text so that it can stand between double quotes on one line. -/
def escape : List Char → List Char
  | [] => []
  | c :: cs =>
    if c = '\n' then '\\' :: 'n' :: escape cs
    else if c = '\t' then '\\' :: 't' :: escape cs
    else if c = '"' then '\\' :: '"' :: escape cs
    else if c = '\\' then '\\' :: '\\' :: escape cs
    else c :: escape cs

/-- Quoted text as found in the input: what it stands for, how it is written up to and including
the closing quote, and what follows. -/
structure Found where
  value : List Char
  text : List Char
  rest : List Char

/-- Puts one more character, written as `raw`, in front. -/
def Found.cons (c : Char) (raw : List Char) (f : Found) : Found :=
  ⟨c :: f.value, raw ++ f.text, f.rest⟩

/-- Reads from just behind an opening quote to the closing one. Text may not run over the end of a
line, unless the line feed follows a backslash. -/
def unquote? : List Char → Option Found
  | [] => none
  | '"' :: rest => some ⟨[], ['"'], rest⟩
  | ['\\'] => none
  | '\\' :: c :: rest => (unquote? rest).map (Found.cons (unescape c) ['\\', c])
  | c :: rest => if c = '\n' then none else (unquote? rest).map (Found.cons c [c])

end CoolTyping.Quoted
