import ResourceVersions.Json.Reader
import ResourceVersions.Yaml.Place

/-!
# Quoted YAML texts

A text in single quotes writes a quote in it twice; a text in double quotes has escapes. A line
break in a quoted text is a blank, and of several the first is left out.
-/
namespace ResourceVersions.Yaml

/-- The character that a letter behind a backslash stands for. -/
def escaped? : Char → Option Char
  | '0' => some (Char.ofNat 0)
  | 'a' => some '\x07'
  | 'b' => some '\x08'
  | 't' | '\t' => some '\t'
  | 'n' => some '\n'
  | 'v' => some '\x0b'
  | 'f' => some '\x0c'
  | 'r' => some '\r'
  | 'e' => some '\x1b'
  | ' ' => some ' '
  | '"' => some '"'
  | '/' => some '/'
  | '\\' => some '\\'
  | 'N' => some '\u0085'
  | '_' => some '\u00a0'
  | 'L' => some '\u2028'
  | 'P' => some '\u2029'
  | _ => none

/-- The number that hexadecimal digits write. -/
def hexNumber? (digits : List Char) : Option Nat :=
  (digits.mapM Json.hexValue?).map (List.foldl (fun n d => 16 * n + d) 0)

/-- The character with a code that takes so many hexadecimal digits. -/
def codeEscape? (width : Nat) (s : List Char) : Option (Char × Nat) :=
  if s.length < width then none
  else
    match hexNumber? (s.take width) with
    | some n => if n < 0x110000 then some (Json.unitChar n, width) else none
    | none => none

/-- The character of an escape behind its backslash, and how many characters the escape has. -/
def escape? : List Char → Option (Char × Nat)
  | 'x' :: rest => (codeEscape? 2 rest).map fun (c, n) => (c, n + 1)
  | 'U' :: rest => (codeEscape? 8 rest).map fun (c, n) => (c, n + 1)
  | 'u' :: rest => (Json.unicodeEscape rest).map fun (c, tail) => (c, rest.length - tail.length + 1)
  | c :: _ => (escaped? c).map fun c => (c, 1)
  | [] => none

/-- The line breaks that come next, and the place of the text behind them. No line may start
with a mark that separates documents. -/
def breaks : (fuel : Nat) → Place → Option (List Char × Place)
  | 0, _ => none
  | fuel + 1, p =>
    if p.separatesDocuments then none
    else
      let p := p.skipWhile isBlank
      match p.lineBreak? with
      | none => some ([], p)
      | some (c, p) => (breaks fuel p).map fun (cs, p) => (c :: cs, p)

/-- What a line break stands for, given the line breaks behind it. -/
def folded (first : Char) (others : List Char) : List Char :=
  if first ≠ '\n' then first :: others else if others.isEmpty then [' '] else others

/-- A text up to its closing quote, read from behind the opening one. -/
def quotedText (quote : Char) : (fuel : Nat) → (read : List Char) → Place →
    Option (String × Place)
  | 0, _, _ => none
  | fuel + 1, read, p =>
    match p.rest with
    | [] => none
    | c :: rest =>
      if c = quote then
        if c = '\'' && rest.head? = some '\'' then quotedText quote fuel (c :: read) (p.advance 2)
        else some (String.ofList read.reverse, p.next)
      else if c = '\\' && quote = '"' then
        match p.next.lineBreak? with
        | some (_, p) =>
          match breaks fuel p with
          | some (cs, p) => quotedText quote fuel (cs.reverse ++ read) p
          | none => none
        | none =>
          match escape? rest with
          | some (c, count) => quotedText quote fuel (c :: read) (p.advance (count + 1))
          | none => none
      else if isBlank c || isBreak c then
        let blanks := p.rest.takeWhile isBlank
        let p := p.advance blanks.length
        match p.lineBreak? with
        | some (first, p) =>
          match breaks fuel p with
          | some (others, p) => quotedText quote fuel ((folded first others).reverse ++ read) p
          | none => none
        | none => quotedText quote fuel (blanks.reverse ++ read) p
      else quotedText quote fuel (c :: read) p.next

end ResourceVersions.Yaml
