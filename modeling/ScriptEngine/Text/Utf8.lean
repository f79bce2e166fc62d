/-!
# Text from bytes

Bytes that should be UTF-8 but may not be: each maximal part of a character that cannot be
continued becomes one replacement character.
-/

namespace ScriptEngine.Text

/-- The character that stands for bytes that are no text. -/
def replacement : Char := '\ufffd'

def isContinuation (b : UInt8) : Bool := 0x80 ≤ b && b ≤ 0xbf

/-- The second bytes that may follow the first byte of a character of three bytes. -/
def startsThree (b₀ b₁ : UInt8) : Bool :=
  (b₀ == 0xe0 && 0xa0 ≤ b₁ && b₁ ≤ 0xbf) || (b₀ == 0xed && 0x80 ≤ b₁ && b₁ ≤ 0x9f) ||
    (0xe1 ≤ b₀ && b₀ ≤ 0xef && b₀ != 0xed && isContinuation b₁)

/-- The second bytes that may follow the first byte of a character of four bytes. -/
def startsFour (b₀ b₁ : UInt8) : Bool :=
  (b₀ == 0xf0 && 0x90 ≤ b₁ && b₁ ≤ 0xbf) || (b₀ == 0xf4 && 0x80 ≤ b₁ && b₁ ≤ 0x8f) ||
    (0xf1 ≤ b₀ && b₀ ≤ 0xf3 && isContinuation b₁)

def low (b : UInt8) : Nat := b.toNat % 64

/-- Reads characters, after those already read (last first). -/
def decodeInto (read : List Char) : List UInt8 → List Char
  | [] => read.reverse
  | [b₀] => ((if b₀ < 0x80 then Char.ofNat b₀.toNat else replacement) :: read).reverse
  | b₀ :: b₁ :: rest =>
    if b₀ < 0x80 then decodeInto (Char.ofNat b₀.toNat :: read) (b₁ :: rest)
    else if 0xc2 ≤ b₀ && b₀ ≤ 0xdf && isContinuation b₁ then
      decodeInto (Char.ofNat (b₀.toNat % 32 * 64 + low b₁) :: read) rest
    else if startsThree b₀ b₁ then
      match rest with
      | [] => (replacement :: read).reverse
      | b₂ :: rest' =>
        if isContinuation b₂ then
          decodeInto (Char.ofNat ((b₀.toNat % 16 * 64 + low b₁) * 64 + low b₂) :: read) rest'
        else decodeInto (replacement :: read) (b₂ :: rest')
    else if startsFour b₀ b₁ then
      match rest with
      | [] => (replacement :: read).reverse
      | [b₂] =>
        if isContinuation b₂ then (replacement :: read).reverse
        else decodeInto (replacement :: read) [b₂]
      | b₂ :: b₃ :: rest' =>
        if isContinuation b₂ then
          if isContinuation b₃ then
            let n := ((b₀.toNat % 8 * 64 + low b₁) * 64 + low b₂) * 64 + low b₃
            decodeInto (Char.ofNat n :: read) rest'
          else decodeInto (replacement :: read) (b₃ :: rest')
        else decodeInto (replacement :: read) (b₂ :: b₃ :: rest')
    else decodeInto (replacement :: read) (b₁ :: rest)
termination_by bytes => bytes.length

/-- Bytes as text, with replacements where they are no UTF-8. -/
def decodeLossy (bytes : Array UInt8) : String :=
  match String.fromUTF8? ⟨bytes⟩ with
  | some s => s
  | none => String.ofList (decodeInto [] bytes.toList)

end ScriptEngine.Text
