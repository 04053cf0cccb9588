/-
Text as bytes in UTF-8. `repair` reads any bytes: what is no well-formed sequence
becomes the replacement character, one for each longest beginning of a sequence that
breaks off.
-/

namespace PropertyGraph.Text.Utf8

/-- The bytes of a text. -/
def encode (s : String) : List UInt8 := s.toList.flatMap String.utf8EncodeChar

/-- The replacement character. -/
def replacement : Char := '\uFFFD'

/-- A byte that continues a sequence. -/
def isContinuation (b : UInt8) : Bool := 0x80 ≤ b && b ≤ 0xBF

/-- Whether `second` may follow `first` in a sequence of three bytes:
no overlong form and no surrogate. -/
def opensThree (first second : UInt8) : Bool :=
  if first == 0xE0 then 0xA0 ≤ second && second ≤ 0xBF
  else if first == 0xED then 0x80 ≤ second && second ≤ 0x9F
  else isContinuation second

/-- Whether `second` may follow `first` in a sequence of four bytes:
no overlong form and nothing beyond U+10FFFF. -/
def opensFour (first second : UInt8) : Bool :=
  if first == 0xF0 then 0x90 ≤ second && second ≤ 0xBF
  else if first == 0xF4 then 0x80 ≤ second && second ≤ 0x8F
  else isContinuation second

/-- The six bits a continuation byte adds. -/
def lowBits (b : UInt8) : Nat := b.toNat % 64

/-- The first character of `first :: rest` and how many bytes of `rest` belong
to it. -/
def lead (first : UInt8) (rest : List UInt8) : Char × Nat :=
  if first < 0x80 then (Char.ofNat first.toNat, 0)
  else if 0xC2 ≤ first && first ≤ 0xDF then
    match rest with
    | b :: _ =>
      if isContinuation b then (Char.ofNat (first.toNat % 32 * 64 + lowBits b), 1)
      else (replacement, 0)
    | [] => (replacement, 0)
  else if 0xE0 ≤ first && first ≤ 0xEF then
    match rest with
    | b :: rest =>
      if opensThree first b then
        match rest with
        | c :: _ =>
          if isContinuation c then
            (Char.ofNat (first.toNat % 16 * 4096 + lowBits b * 64 + lowBits c), 2)
          else (replacement, 1)
        | [] => (replacement, 1)
      else (replacement, 0)
    | [] => (replacement, 0)
  else if 0xF0 ≤ first && first ≤ 0xF4 then
    match rest with
    | b :: rest =>
      if opensFour first b then
        match rest with
        | c :: rest =>
          if isContinuation c then
            match rest with
            | d :: _ =>
              if isContinuation d then
                (Char.ofNat
                  (first.toNat % 8 * 262144 + lowBits b * 4096 + lowBits c * 64 + lowBits d), 3)
              else (replacement, 2)
            | [] => (replacement, 2)
          else (replacement, 1)
        | [] => (replacement, 1)
      else (replacement, 0)
    | [] => (replacement, 0)
  else (replacement, 0)

/-- The characters of any bytes, with `replacement` where they are malformed. -/
def repair : List UInt8 → List Char
  | [] => []
  | first :: rest =>
    let (c, used) := lead first rest
    c :: repair (rest.drop used)
termination_by bytes => bytes.length
decreasing_by simp only [List.length_drop, List.length_cons]; omega

end PropertyGraph.Text.Utf8
