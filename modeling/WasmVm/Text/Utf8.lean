/-
Forgiving UTF-8 decoding.  Every maximal run of bytes that starts a character
without completing it, and every byte that cannot start one, becomes a single
replacement character; all other bytes are decoded as they stand.
-/
namespace WasmVm.Text

/-- The character that stands for bytes that are not UTF-8. -/
def replacement : Char := '\uFFFD'

/-- A character whose first bytes have been seen. -/
structure OpenChar where
  /-- The bits gathered so far. -/
  code : Nat
  /-- Continuation bytes owed after the next one. -/
  owed : Nat
  /-- Least value of the next byte. -/
  low : UInt8
  /-- Greatest value of the next byte. -/
  high : UInt8

/-- What a byte does where a character starts. -/
inductive Lead where
  | whole (c : Char)
  | start (rest : OpenChar)
  | invalid

/-- The bounds on the second byte rule out overlong forms, surrogates and code
points past the last plane. -/
def lead (b : UInt8) : Lead :=
  let n := b.toNat
  if n < 0x80 then .whole (Char.ofNat n)
  else if n < 0xc2 then .invalid
  else if n < 0xe0 then .start ⟨n - 0xc0, 0, 0x80, 0xbf⟩
  else if n = 0xe0 then .start ⟨0, 1, 0xa0, 0xbf⟩
  else if n = 0xed then .start ⟨0xd, 1, 0x80, 0x9f⟩
  else if n < 0xf0 then .start ⟨n - 0xe0, 1, 0x80, 0xbf⟩
  else if n = 0xf0 then .start ⟨0, 2, 0x90, 0xbf⟩
  else if n < 0xf4 then .start ⟨n - 0xf0, 2, 0x80, 0xbf⟩
  else if n = 0xf4 then .start ⟨4, 2, 0x80, 0x8f⟩
  else .invalid

/-- The decoder between two bytes: the text so far and the character, if any,
that is still open. -/
structure Decoder where
  text : String
  pending : Option OpenChar

namespace Decoder

/-- A byte where no character is open. -/
def startWith (text : String) (b : UInt8) : Decoder :=
  match lead b with
  | .whole c => ⟨text.push c, none⟩
  | .start rest => ⟨text, some rest⟩
  | .invalid => ⟨text.push replacement, none⟩

/-- A byte that cannot continue the open character closes it with a replacement
and is then looked at afresh. -/
def feed (d : Decoder) (b : UInt8) : Decoder :=
  match d.pending with
  | none => startWith d.text b
  | some p =>
    if p.low ≤ b ∧ b ≤ p.high then
      let code := p.code * 64 + b.toNat % 64
      match p.owed with
      | 0 => ⟨d.text.push (Char.ofNat code), none⟩
      | owed + 1 => ⟨d.text, some ⟨code, owed, 0x80, 0xbf⟩⟩
    else
      startWith (d.text.push replacement) b

/-- A character still open at the end is replaced. -/
def finish (d : Decoder) : String :=
  match d.pending with
  | none => d.text
  | some _ => d.text.push replacement

end Decoder

/-- The text that `bytes` encode, with replacements where they encode none. -/
def ofUtf8 (bytes : List UInt8) : String :=
  (bytes.foldl Decoder.feed ⟨"", none⟩).finish

end WasmVm.Text
