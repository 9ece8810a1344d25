import StoreModels.Text.Lines

/-!
Lines and columns of byte offsets. A byte offset counts the bytes of the UTF-8 form before it.
-/
namespace StoreModels.Text

/-- The number of bytes of a text in UTF-8. -/
def byteLength (text : List Char) : Nat := text.foldl (fun bytes c => bytes + c.utf8Size) 0

/-- The characters that lie wholly within the first `bytes` bytes. -/
def takeBytes : Nat → List Char → List Char
  | _, [] => []
  | bytes, c :: rest => if c.utf8Size ≤ bytes then c :: takeBytes (bytes - c.utf8Size) rest else []

/-- The indentation of the line that holds a byte offset. -/
def lineIndentAtByte (text : List Char) (offset : Nat) : List Char :=
  lineIndent text (takeBytes offset text).length

/-- A number of 32 bits counts as many. -/
instance coeNumber : Coe UInt32 Nat := ⟨UInt32.toNat⟩

/-- A line and a column, both counted from one, as numbers of 32 bits. -/
structure Position where
  line : UInt32
  column : UInt32
  deriving DecidableEq, Repr

/-- The position of a byte offset; an offset beyond the end is the end. The column counts characters, except that an
    offset inside a character counts the bytes of its line. A number that does not fit goes round. -/
def positionOf (text : List Char) (offset : Nat) : Position :=
  let offset := min offset (byteLength text)
  let before := takeBytes offset text
  let line := lastLine before
  let inside := offset - byteLength before
  { line := UInt32.ofNat (before.count '\n') + 1
    column := UInt32.ofNat (if inside = 0 then line.length else byteLength line + inside) + 1 }

/-- A range of a text by positions. -/
structure Region where
  start : Position
  stop : Position
  deriving DecidableEq, Repr

/-- The region between two byte offsets. -/
def regionOf (text : List Char) (start stop : Nat) : Region :=
  ⟨positionOf text start, positionOf text stop⟩

/-- How a syntax error in a region is reported. -/
def Region.errorText (region : Region) (message : String) : String :=
  "Parse error at line " ++ toString (region.start.line : Nat) ++ ", column " ++ toString (region.start.column : Nat) ++
    ": " ++ message

end StoreModels.Text
