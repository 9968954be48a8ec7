import Templates.Text.Hidden
/-!
# Quoted texts

A text is quoted for people who look for a fault: between double quotes, with a backslash before a quote or a backslash, a
letter or a zero behind a backslash for the usual control characters, and the code point in braces for every other
character that would not be seen.
-/
namespace Templates
namespace Text

def hexadecimal (n : Nat) : Text := Nat.toDigits 16 n

def quoteChar (c : Char) : Text :=
  if c = '"' then ['\\', '"']
  else if c = '\\' then ['\\', '\\']
  else if c = '\n' then ['\\', 'n']
  else if c = '\r' then ['\\', 'r']
  else if c = '\t' then ['\\', 't']
  else if c = Char.ofNat 0 then ['\\', '0']
  else if isHidden c then '\\' :: 'u' :: '{' :: (hexadecimal c.toNat ++ ['}'])
  else [c]

def quoted (t : Text) : Text := '"' :: (t.flatMap quoteChar ++ ['"'])

end Text
end Templates
