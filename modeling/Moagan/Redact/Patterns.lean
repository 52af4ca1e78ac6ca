import Moagan.Lib.Replace

/-!
# The secret patterns

* `Unicode`           what the engine's tables say of the characters beyond ASCII
* `PATTERNS`          the patterns, in the order in which they are applied
* `patterns_sound`    no match is empty or ends with a line end
* `patterns_plain`    no pattern but one can tell the lines apart
* `patterns_marked`   what the patterns write begins with a bracket
-/

namespace Moagan.Redact

open Regex

/-- the characters beyond ASCII in `\w` and in `\d` -/
structure Unicode where
  word : Char → Bool
  digit : Char → Bool

/-! ## classes -/

/-- `\w` -/
def wordChar (U : Unicode) (c : Char) : Bool :=
  if c.toNat < 128 then c.isAlphanum || c == '_' else U.word c

/-- `\d` -/
def digitChar (U : Unicode) (c : Char) : Bool := if c.toNat < 128 then c.isDigit else U.digit c

/-- `\s`, the property `White_Space` -/
def spaceChar (c : Char) : Bool :=
  let n := c.toNat
  (9 ≤ n && n ≤ 13) || n == 0x20 || n == 0x85 || n == 0xA0 || n == 0x1680 ||
    (0x2000 ≤ n && n ≤ 0x200A) || n == 0x2028 || n == 0x2029 || n == 0x202F || n == 0x205F ||
    n == 0x3000

/-- `[A-Za-z0-9]` -/
def alnum (c : Char) : Bool := c.isAlphanum

/-- `[A-Za-z0-9_-]` -/
def tokenChar (c : Char) : Bool := c.isAlphanum || c == '_' || c == '-'

/-- `[a-f0-9]` -/
def hexChar (c : Char) : Bool := c.isDigit || ('a' ≤ c && c ≤ 'f')

def swapCase (c : Char) : Char :=
  if c.isUpper then c.toLower else if c.isLower then c.toUpper else c

/-- `(?i)` on a class of ASCII characters: beside the other case of a letter, the long `s` and the
Kelvin sign fold to ASCII letters -/
def anyCase (p : Char → Bool) (c : Char) : Bool :=
  p c || p (swapCase c) || (c.toNat == 0x17F && (p 's' || p 'S')) ||
    (c.toNat == 0x212A && (p 'k' || p 'K'))

/-! ## expressions -/

def literal (s : List Char) : Regex Char := s.foldr (fun c r => .seq (.cls (· == c)) r) .empty

def literalAnyCase (s : List Char) : Regex Char :=
  s.foldr (fun c r => .seq (.cls (anyCase (· == c))) r) .empty

/-- `p{n,}` -/
def atLeast (n : ℕ) (p : Char → Bool) : Regex Char := .rep true n none (.cls p)

/-- `p{n}` -/
def exactly (n : ℕ) (p : Char → Bool) : Regex Char := .rep true n (some n) (.cls p)

/-- `p?` -/
def optional (p : Char → Bool) : Regex Char := .rep true 0 (some 1) (.cls p)

/-- one behind the other -/
def sequence (rs : List (Regex Char)) : Regex Char := rs.foldr .seq .empty

def oneOf (r : Regex Char) (rs : List (Regex Char)) : Regex Char := rs.foldl .alt r

structure Pattern where
  id : String
  re : Regex Char
  replacement : List (Regex.Part Char)

def pat (id : String) (re : Regex Char) (replacement : String) : Pattern :=
  ⟨id, re, [.text replacement.toList]⟩

/-- `(?:^|(?P<ctx>[=: \t]))(?P<key>[a-f0-9]{32})` -/
def elevenlabsRe : Regex Char :=
  .seq (.alt .start (.group "ctx" (.cls fun c => c == '=' || c == ':' || c == ' ' || c == '\t')))
    (.group "key" (exactly 32 hexChar))

/-- the one pattern whose replacement has a group -/
def elevenlabsKey : Pattern :=
  ⟨"elevenlabs_key", elevenlabsRe, [.group "ctx", .text "[REDACTED:elevenlabs_key]".toList]⟩

def dot : Regex Char := .cls (· == '.')

/-- `\d{1,3}` -/
def octet (U : Unicode) : Regex Char := .rep true 1 (some 3) (.cls (digitChar U))

/-- `[0-9]` -/
def asciiDigit : Regex Char := .cls Char.isDigit

/-- `25[0-5]|2[0-4][0-9]|[01]?[0-9][0-9]?` -/
def byteValue : Regex Char :=
  oneOf (sequence [literal ['2', '5'], .cls fun c => '0' ≤ c && c ≤ '5']) [
    sequence [literal ['2'], .cls fun c => '0' ≤ c && c ≤ '4', asciiDigit],
    sequence [optional fun c => c == '0' || c == '1', asciiDigit, optional Char.isDigit]]

/-- `[ -]` -/
def cardGap : Regex Char := .cls fun c => c == ' ' || c == '-'

def dashes : List Char := ['-', '-', '-', '-', '-']

/-- `-----BEGIN label-----[\s\S]+?-----END label-----` -/
def block (label : Regex Char) : Regex Char :=
  sequence [literal (dashes ++ ['B', 'E', 'G', 'I', 'N', ' ']), label, literal dashes,
    .rep false 1 none (.cls fun _ => true),
    literal (dashes ++ ['E', 'N', 'D', ' ']), label, literal dashes]

def quote (c : Char) : Bool := c == '\'' || c == '"'

/-- `aws_secret_access_key\s*=\s*['"]?[A-Za-z0-9/+=]{40}['"]?` with `(?i)` -/
def awsSecretRe : Regex Char :=
  sequence [literalAnyCase ['a', 'w', 's', '_', 's', 'e', 'c', 'r', 'e', 't', '_', 'a', 'c', 'c',
      'e', 's', 's', '_', 'k', 'e', 'y'],
    atLeast 0 spaceChar, literal ['='], atLeast 0 spaceChar, optional quote,
    exactly 40 (anyCase fun c => c.isAlphanum || c == '/' || c == '+' || c == '='), optional quote]

/-- `(postgres|postgresql|mysql|mongodb|redis|amqp)://[^\s"']{8,}` with `(?i)` -/
def connectionStringRe : Regex Char :=
  sequence [oneOf (literalAnyCase ['p', 'o', 's', 't', 'g', 'r', 'e', 's']) [
      literalAnyCase ['p', 'o', 's', 't', 'g', 'r', 'e', 's', 'q', 'l'],
      literalAnyCase ['m', 'y', 's', 'q', 'l'],
      literalAnyCase ['m', 'o', 'n', 'g', 'o', 'd', 'b'],
      literalAnyCase ['r', 'e', 'd', 'i', 's'],
      literalAnyCase ['a', 'm', 'q', 'p']],
    literal [':', '/', '/'], atLeast 8 fun c => !(spaceChar c || quote c)]

/-- `\b(?:(?:10|127)\.d\.d\.d|192\.168\.d\.d|172\.(?:1[6-9]|2\d|3[01])\.d\.d)\b`, where `d` is
`\d{1,3}` -/
def privateIpRe (U : Unicode) : Regex Char :=
  sequence [.boundary (wordChar U),
    oneOf (sequence [.alt (literal ['1', '0']) (literal ['1', '2', '7']), dot, octet U, dot,
        octet U, dot, octet U]) [
      sequence [literal ['1', '9', '2', '.', '1', '6', '8', '.'], octet U, dot, octet U],
      sequence [literal ['1', '7', '2', '.'],
        oneOf (.seq (literal ['1']) (.cls fun c => '6' ≤ c && c ≤ '9')) [
          .seq (literal ['2']) (.cls (digitChar U)),
          .seq (literal ['3']) (.cls fun c => c == '0' || c == '1')],
        dot, octet U, dot, octet U]],
    .boundary (wordChar U)]

/-- `\b\d{4}[ -]\d{4}[ -]\d{4}[ -]\d{4}\b` and so on: numbers of digits with gaps between them -/
def cardRe (U : Unicode) (counts : List ℕ) : Regex Char :=
  sequence ([.boundary (wordChar U)] ++
    (counts.map fun n => exactly n (digitChar U)).intersperse cardGap ++ [.boundary (wordChar U)])

/-- `[\w.+-]+@[\w-]+\.[\w.-]+` -/
def emailRe (U : Unicode) : Regex Char :=
  sequence [atLeast 1 fun c => wordChar U c || c == '.' || c == '+' || c == '-', literal ['@'],
    atLeast 1 fun c => wordChar U c || c == '-', dot,
    atLeast 1 fun c => wordChar U c || c == '.' || c == '-']

def PATTERNS (U : Unicode) : List Pattern := [
  -- sk-cp-[A-Za-z0-9_\-]{16,}
  pat "minimax_sk_cp" (.seq (literal ['s', 'k', '-', 'c', 'p', '-']) (atLeast 16 tokenChar))
    "[REDACTED:minimax_sk_cp]",
  -- sk-ant-[A-Za-z0-9_-]{20,}
  pat "anthropic_key" (.seq (literal ['s', 'k', '-', 'a', 'n', 't', '-']) (atLeast 20 tokenChar))
    "[REDACTED:anthropic_key]",
  -- sk-[A-Za-z0-9]{20,}
  pat "openai_key" (.seq (literal ['s', 'k', '-']) (atLeast 20 alnum)) "[REDACTED:openai_key]",
  -- AIzaSy[A-Za-z0-9_-]{20,}
  pat "gemini_key" (.seq (literal ['A', 'I', 'z', 'a', 'S', 'y']) (atLeast 20 tokenChar))
    "[REDACTED:gemini_key]",
  -- hf_[A-Za-z0-9]{20,}
  pat "huggingface_token" (.seq (literal ['h', 'f', '_']) (atLeast 20 alnum))
    "[REDACTED:huggingface_token]",
  -- r8_[A-Za-z0-9]{20,}
  pat "replicate_token" (.seq (literal ['r', '8', '_']) (atLeast 20 alnum))
    "[REDACTED:replicate_token]",
  elevenlabsKey,
  -- ghp_[A-Za-z0-9]{36}
  pat "github_pat" (.seq (literal ['g', 'h', 'p', '_']) (exactly 36 alnum)) "[REDACTED:github_pat]",
  -- gho_[A-Za-z0-9]{36}
  pat "github_oauth" (.seq (literal ['g', 'h', 'o', '_']) (exactly 36 alnum))
    "[REDACTED:github_oauth]",
  -- (ghu|ghs)_[A-Za-z0-9]{36}
  pat "github_app" (sequence [.alt (literal ['g', 'h', 'u']) (literal ['g', 'h', 's']),
      literal ['_'], exactly 36 alnum])
    "[REDACTED:github_app]",
  -- ghr_[A-Za-z0-9]{36}
  pat "github_refresh" (.seq (literal ['g', 'h', 'r', '_']) (exactly 36 alnum))
    "[REDACTED:github_refresh]",
  -- AKIA[0-9A-Z]{16}
  pat "aws_access_key"
    (.seq (literal ['A', 'K', 'I', 'A']) (exactly 16 fun c => c.isDigit || c.isUpper))
    "[REDACTED:aws_access_key]",
  pat "aws_secret_key" awsSecretRe "[REDACTED:aws_secret_key]",
  -- (?i)bearer\s+[A-Za-z0-9_\-\.=]{16,}
  pat "bearer" (sequence [literalAnyCase ['b', 'e', 'a', 'r', 'e', 'r'], atLeast 1 spaceChar,
      atLeast 16 (anyCase fun c => c.isAlphanum || c == '_' || c == '-' || c == '.' || c == '=')])
    "[REDACTED:bearer]",
  -- eyJ[A-Za-z0-9_\-]+\.[A-Za-z0-9_\-]+\.[A-Za-z0-9_\-]+
  pat "jwt" (sequence [literal ['e', 'y', 'J'], atLeast 1 tokenChar, dot, atLeast 1 tokenChar, dot,
      atLeast 1 tokenChar])
    "[REDACTED:jwt]",
  -- the label is [A-Z ]*PRIVATE KEY
  pat "ssh_private_key" (block (.seq (atLeast 0 fun c => c.isUpper || c == ' ')
      (literal ['P', 'R', 'I', 'V', 'A', 'T', 'E', ' ', 'K', 'E', 'Y'])))
    "[REDACTED:ssh_private_key]",
  pat "pem_certificate"
    (block (literal ['C', 'E', 'R', 'T', 'I', 'F', 'I', 'C', 'A', 'T', 'E']))
    "[REDACTED:pem_certificate]",
  pat "connection_string" connectionStringRe "[REDACTED:connection_string]",
  -- xox[abprs]-[A-Za-z0-9-]{10,}
  pat "slack_token" (sequence [literal ['x', 'o', 'x'],
      .cls fun c => ['a', 'b', 'p', 'r', 's'].contains c, literal ['-'],
      atLeast 10 fun c => c.isAlphanum || c == '-'])
    "[REDACTED:slack_token]",
  -- sk_live_[A-Za-z0-9]{24,}
  pat "stripe_live" (.seq (literal ['s', 'k', '_', 'l', 'i', 'v', 'e', '_']) (atLeast 24 alnum))
    "[REDACTED:stripe_live]",
  -- sk_test_[A-Za-z0-9]{24,}
  pat "stripe_test" (.seq (literal ['s', 'k', '_', 't', 'e', 's', 't', '_']) (atLeast 24 alnum))
    "[REDACTED:stripe_test]",
  -- SG\.[A-Za-z0-9_\-]{22}\.[A-Za-z0-9_\-]{43}
  pat "sendgrid"
    (sequence [literal ['S', 'G', '.'], exactly 22 tokenChar, dot, exactly 43 tokenChar])
    "[REDACTED:sendgrid]",
  -- SK[0-9a-fA-F]{32}
  pat "twilio"
    (.seq (literal ['S', 'K']) (exactly 32 fun c => hexChar c || ('A' ≤ c && c ≤ 'F')))
    "[REDACTED:twilio]",
  -- 1//[0-9A-Za-z_\-]{43,}
  pat "google_oauth_refresh" (.seq (literal ['1', '/', '/']) (atLeast 43 tokenChar))
    "[REDACTED:google_oauth_refresh]",
  pat "private_ip" (privateIpRe U) "[REDACTED:private_ip]",
  -- a byte value and a dot three times, and a byte value
  pat "ip_v4" (sequence [.boundary (wordChar U), .rep true 3 (some 3) (.seq byteValue dot),
      byteValue, .boundary (wordChar U)])
    "[REDACTED:ip_v4]",
  -- \b\d{3}-\d{2}-\d{4}\b
  pat "ssn_like" (sequence [.boundary (wordChar U), exactly 3 (digitChar U), literal ['-'],
      exactly 2 (digitChar U), literal ['-'], exactly 4 (digitChar U), .boundary (wordChar U)])
    "[REDACTED:ssn]",
  pat "credit_card" (oneOf (cardRe U [4, 4, 4, 4]) [cardRe U [4, 4, 4, 3], cardRe U [4, 6, 5]])
    "[REDACTED:credit_card]",
  pat "email" (emailRe U) "[REDACTED:email]",
  -- https://api\.minimax\.io/[A-Za-z0-9/_\.\-]+
  pat "moagan_minimax_endpoint"
    (.seq (literal ['h', 't', 't', 'p', 's', ':', '/', '/', 'a', 'p', 'i', '.', 'm', 'i', 'n', 'i',
        'm', 'a', 'x', '.', 'i', 'o', '/'])
      (atLeast 1 fun c => c.isAlphanum || c == '/' || c == '_' || c == '.' || c == '-'))
    "[REDACTED:moagan_endpoint]"]

/-! ## what the patterns have in common -/

/-- what `elevenlabs_key` writes -/
def keyMarker : List Char := ['[', 'R', 'E', 'D', 'A', 'C', 'T', 'E', 'D', ':', 'e', 'l', 'e', 'v',
  'e', 'n', 'l', 'a', 'b', 's', '_', 'k', 'e', 'y', ']']

/-- a match takes a character, and neither it nor its groups bring a line end along -/
def Pattern.sound (p : Pattern) : Bool :=
  !p.re.mayEnd '\n' && !p.re.mayCapture '\n' && !p.re.nullable

/-- a pattern to which the lines of a text are alike, and which leaves the marker alone -/
def Pattern.plain (p : Pattern) : Bool :=
  p.re.anchored || (p.re.alike (some '\n') none && p.re.passes keyMarker)

theorem patterns_sound (U : Unicode) : ∀ p ∈ PATTERNS U, p.sound = true :=
  List.all_eq_true.mp rfl

theorem patterns_plain (U : Unicode) : ∀ p ∈ PATTERNS U, p.plain = true :=
  List.all_eq_true.mp rfl

/-- no pattern matches an empty text, so that a match that takes nothing need not be written -/
theorem pattern_first {U : Unicode} {p : Pattern} (hp : p ∈ PATTERNS U) (prev : Option Char)
    (text : List Char) : p.re.first prev text = (p.re.ends prev text).head? := by
  have hsound := patterns_sound U p hp
  simp only [Pattern.sound, Bool.and_eq_true, Bool.not_eq_true'] at hsound
  exact first_eq_head hsound.2 prev text

/-- one pattern alone has `^` -/
theorem patterns_anchored (U : Unicode) :
    (PATTERNS U).filter (·.re.anchored) = [elevenlabsKey] := id rfl

/-- a marker that is not the one of `elevenlabs_key` -/
def isMarker (w : List Char) : Bool :=
  w.head? == some '[' && 12 ≤ w.length && !(keyMarker.take 12).isPrefixOf w && !w.contains '\n'

def Pattern.marked (p : Pattern) : Bool :=
  match p.replacement with
  | [.text w] => isMarker w
  | _ => p.re.anchored

/-- the replacements do not depend on the tables -/
theorem patterns_marked (U : Unicode) : ∀ p ∈ PATTERNS U, p.marked = true := by
  have hsame : (PATTERNS U).map (fun p => (p.replacement, p.re.anchored))
      = (PATTERNS ⟨fun _ => false, fun _ => false⟩).map fun p => (p.replacement, p.re.anchored) := rfl
  have hclosed : ∀ p ∈ PATTERNS ⟨fun _ => false, fun _ => false⟩, p.marked = true := by
    decide +kernel
  intro p hp
  have hmem := List.mem_map_of_mem (f := fun p : Pattern => (p.replacement, p.re.anchored)) hp
  rw [hsame] at hmem
  obtain ⟨q, hq, heq⟩ := List.mem_map.mp hmem
  obtain ⟨hrep, hanch⟩ := Prod.mk.inj heq
  have hmarked := hclosed q hq
  unfold Pattern.marked at hmarked ⊢
  rwa [hrep, hanch] at hmarked

end Moagan.Redact
