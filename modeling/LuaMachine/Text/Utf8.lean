/-!
# Bytes read as UTF-8

Strings are byte strings that need not be valid UTF-8. For display every maximal piece that cannot
begin a character is replaced by one replacement character.
-/
namespace LuaMachine.Text

/-- Whether the byte continues a character. -/
def isContinuation (c : UInt8) : Bool :=
  0x80 ≤ c && c ≤ 0xBF

/-- The second bytes that may follow a lead byte of three or four bytes: overlong forms, surrogates
and code points above the last plane are excluded. -/
def secondRange (lead : UInt8) : UInt8 × UInt8 :=
  if lead = 0xE0 then (0xA0, 0xBF)
  else if lead = 0xED then (0x80, 0x9F)
  else if lead = 0xF0 then (0x90, 0xBF)
  else if lead = 0xF4 then (0x80, 0x8F)
  else (0x80, 0xBF)

/-- How many bytes follow a lead byte, or none if the byte cannot begin a character. -/
def followers (lead : UInt8) : Option Nat :=
  if lead < 0x80 then some 0
  else if 0xC2 ≤ lead && lead ≤ 0xDF then some 1
  else if 0xE0 ≤ lead && lead ≤ 0xEF then some 2
  else if 0xF0 ≤ lead && lead ≤ 0xF4 then some 3
  else none

/-- The longest run of acceptable bytes after the lead byte, at most `count` of them. -/
def tailRun (lead : UInt8) (count : Nat) (rest : List UInt8) : List UInt8 :=
  match rest with
  | [] => []
  | second :: more =>
    let (lo, hi) := secondRange lead
    if 0 < count ∧ lo ≤ second ∧ second ≤ hi then second :: (more.take (count - 1)).takeWhile
      isContinuation
    else []

/-- The code point of a lead byte and its followers. -/
def codePoint (lead : UInt8) (tail : List UInt8) : Nat :=
  let start := match tail.length with
    | 0 => lead.toNat
    | 1 => lead.toNat - 0xC0
    | 2 => lead.toNat - 0xE0
    | _ => lead.toNat - 0xF0
  tail.foldl (fun acc c => acc * 64 + (c.toNat - 0x80)) start

/-- The first character of `lead :: rest`, or none for a broken piece, and how many bytes of `rest`
belong to it. -/
def decodeHead (lead : UInt8) (rest : List UInt8) : Option Char × Nat :=
  match followers lead with
  | none => (none, 0)
  | some count =>
    let tail := tailRun lead count rest
    if tail.length = count then (some (Char.ofNat (codePoint lead tail)), count)
    else (none, tail.length)

/-- The characters of a byte string, with `none` for every broken piece. -/
def decode : List UInt8 → List (Option Char)
  | [] => []
  | lead :: rest => (decodeHead lead rest).1 :: decode (rest.drop (decodeHead lead rest).2)
  termination_by bytes => bytes.length
  decreasing_by
    simp only [List.length_drop, List.length_cons]
    omega

/-- Whether the bytes are valid UTF-8. -/
def isValid (bytes : List UInt8) : Bool :=
  (decode bytes).all Option.isSome

/-- The text with each broken piece replaced. -/
def lossy (bytes : List UInt8) : String :=
  String.ofList ((decode bytes).map (·.getD (Char.ofNat 0xFFFD)))

end LuaMachine.Text
