set_option autoImplicit false

/-! # Quoted strings

A string value is kept as it was written between its quotes, with its escapes. To write it
between single quotes, every pair of a backslash and a character is copied, and outside such
pairs a single quote gets a backslash and a line feed becomes `\n`. A backslash that ends the
value stays alone.
-/

namespace ExprScript

/-- The characters of a value as they stand between single quotes. -/
def quoteChars : List Char → List Char
  | [] => []
  | '\\' :: c :: cs => '\\' :: c :: quoteChars cs
  | ['\\'] => ['\\']
  | '\'' :: cs => '\\' :: '\'' :: quoteChars cs
  | '\n' :: cs => '\\' :: 'n' :: quoteChars cs
  | c :: cs => c :: quoteChars cs

def quote (value : String) : String := String.ofList ('\'' :: quoteChars value.toList ++ ['\''])

end ExprScript
