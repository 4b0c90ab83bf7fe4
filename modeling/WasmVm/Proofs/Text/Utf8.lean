/-
Texts that are UTF-8.  Nothing of them is replaced: the decoder gives back the text
whose encoding it reads.
-/
import WasmVm.Text.Utf8

namespace WasmVm.Text

namespace Decoder

variable {text : String} {p : OpenChar}

/-- A byte that fits completes the open character. -/
theorem feed_last {n : Nat} (hn : n < 256) (howed : p.owed = 0)
    (hfits : p.low.toNat ≤ n ∧ n ≤ p.high.toNat) :
    feed ⟨text, some p⟩ (UInt8.ofNat n) =
      ⟨text.push (Char.ofNat (p.code * 64 + n % 64)), none⟩ := by
  have hb : (UInt8.ofNat n).toNat = n := by simp [Nat.mod_eq_of_lt hn]
  simp only [feed, UInt8.le_iff_toNat_le, hb, if_pos hfits, howed]

/-- A byte that fits is added to the open character. -/
theorem feed_next {n owed : Nat} (hn : n < 256) (howed : p.owed = owed + 1)
    (hfits : p.low.toNat ≤ n ∧ n ≤ p.high.toNat) :
    feed ⟨text, some p⟩ (UInt8.ofNat n) =
      ⟨text, some ⟨p.code * 64 + n % 64, owed, 0x80, 0xbf⟩⟩ := by
  have hb : (UInt8.ofNat n).toNat = n := by simp [Nat.mod_eq_of_lt hn]
  simp only [feed, UInt8.le_iff_toNat_le, hb, if_pos hfits, howed]

end Decoder

/-- What the lead of two bytes opens. -/
theorem lead_two {k : Nat} (hk : 2 ≤ k ∧ k < 32) :
    lead (UInt8.ofNat (k + 192)) = .start ⟨k, 0, 0x80, 0xbf⟩ := by
  have hb : (UInt8.ofNat (k + 192)).toNat = k + 192 := by
    simp
    omega
  unfold lead
  simp only [hb]
  rw [if_neg (by omega), if_neg (by omega), if_pos (by omega), Nat.add_sub_cancel]

/-- What the lead of three bytes opens.  The second byte is bounded so that the form is
not overlong and no surrogate. -/
theorem lead_three {k : Nat} (hk : k < 16) :
    ∃ low high : UInt8, lead (UInt8.ofNat (k + 224)) = .start ⟨k, 1, low, high⟩ ∧
      ∀ n, 128 ≤ n → n < 192 → (k = 0 → 160 ≤ n) → (k = 13 → n < 160) →
        low.toNat ≤ n ∧ n ≤ high.toNat := by
  have hb : (UInt8.ofNat (k + 224)).toNat = k + 224 := by
    simp
    omega
  unfold lead
  simp only [hb]
  rw [if_neg (by omega), if_neg (by omega), if_neg (by omega)]
  by_cases hfirst : k = 0
  · subst hfirst
    exact ⟨0xa0, 0xbf, rfl, fun n _ hn hlow _ => ⟨hlow rfl, Nat.le_of_lt_succ hn⟩⟩
  by_cases hsurrogate : k = 13
  · subst hsurrogate
    exact ⟨0x80, 0x9f, rfl, fun n hn _ _ hhigh => ⟨hn, Nat.le_of_lt_succ (hhigh rfl)⟩⟩
  rw [if_neg (by omega), if_neg (by omega), if_pos (by omega), Nat.add_sub_cancel]
  exact ⟨0x80, 0xbf, rfl, fun n hn hn' _ _ => ⟨hn, Nat.le_of_lt_succ hn'⟩⟩

/-- What the lead of four bytes opens.  The second byte is bounded so that the form is
not overlong and within the last plane. -/
theorem lead_four {k : Nat} (hk : k < 5) :
    ∃ low high : UInt8, lead (UInt8.ofNat (k + 240)) = .start ⟨k, 2, low, high⟩ ∧
      ∀ n, 128 ≤ n → n < 192 → (k = 0 → 144 ≤ n) → (k = 4 → n < 144) →
        low.toNat ≤ n ∧ n ≤ high.toNat := by
  have hb : (UInt8.ofNat (k + 240)).toNat = k + 240 := by
    simp
    omega
  unfold lead
  simp only [hb]
  rw [if_neg (by omega), if_neg (by omega), if_neg (by omega), if_neg (by omega),
    if_neg (by omega), if_neg (by omega)]
  by_cases hfirst : k = 0
  · subst hfirst
    exact ⟨0x90, 0xbf, rfl, fun n _ hn hlow _ => ⟨hlow rfl, Nat.le_of_lt_succ hn⟩⟩
  by_cases hlast : k = 4
  · subst hlast
    exact ⟨0x80, 0x8f, rfl, fun n hn _ _ hhigh => ⟨hn, Nat.le_of_lt_succ (hhigh rfl)⟩⟩
  rw [if_neg (by omega), if_pos (by omega), Nat.add_sub_cancel]
  exact ⟨0x80, 0xbf, rfl, fun n hn hn' _ _ => ⟨hn, Nat.le_of_lt_succ hn'⟩⟩

namespace Decoder

/-- The bytes of a character add that character. -/
theorem feed_utf8EncodeChar (text : String) (c : Char) :
    (String.utf8EncodeChar c).foldl feed ⟨text, none⟩ = ⟨text.push c, none⟩ := by
  have hvalid : c.toNat < 0xd800 ∨ 0xdfff < c.toNat ∧ c.toNat < 0x110000 := c.valid
  have hchar {n : Nat} (hn : n = c.toNat) : Char.ofNat n = c := by
    rw [hn, Char.ofNat_toNat]
  have hstart {b : UInt8} {p : OpenChar} (hb : lead b = .start p) :
      feed ⟨text, none⟩ b = ⟨text, some p⟩ := by simp only [feed, startWith, hb]
  have hval : c.val.toNat = c.toNat := rfl
  simp only [String.utf8EncodeChar, hval]
  split
  · next hone =>
      have hb : (UInt8.ofNat c.toNat).toNat = c.toNat := by
        simp
        omega
      have hlead : lead (UInt8.ofNat c.toNat) = .whole c := by
        simp only [lead, hb, if_pos (Nat.lt_succ_of_le hone), hchar rfl]
      simp only [List.foldl_cons, List.foldl_nil, feed, startWith, hlead]
  split
  · next hone htwo =>
      have hk : 2 ≤ c.toNat / 64 % 32 ∧ c.toNat / 64 % 32 < 32 := by omega
      rw [List.foldl_cons, hstart (lead_two hk), List.foldl_cons, List.foldl_nil,
        feed_last (by omega) rfl ⟨?_, ?_⟩, hchar (by simp only; omega)]
      · change 128 ≤ _
        omega
      · change _ ≤ 191
        omega
  split
  · next htwo hthree =>
      obtain ⟨low, high, hlead, hbounds⟩ :=
        lead_three (k := c.toNat / 4096 % 16) (by omega)
      rw [List.foldl_cons, hstart hlead, List.foldl_cons,
        feed_next (by omega) rfl
          (hbounds _ (by omega) (by omega) (by omega) (by omega)),
        List.foldl_cons, List.foldl_nil, feed_last (by omega) rfl ⟨?_, ?_⟩,
        hchar (by simp only; omega)]
      · change 128 ≤ _
        omega
      · change _ ≤ 191
        omega
  · next hthree =>
      obtain ⟨low, high, hlead, hbounds⟩ :=
        lead_four (k := c.toNat / 262144 % 8) (by omega)
      rw [List.foldl_cons, hstart hlead, List.foldl_cons,
        feed_next (by omega) rfl
          (hbounds _ (by omega) (by omega) (by omega) (by omega)),
        List.foldl_cons, feed_next (by omega) rfl ⟨?_, ?_⟩,
          List.foldl_cons, List.foldl_nil,
        feed_last (by omega) rfl ⟨?_, ?_⟩, hchar (by simp only; omega)]
      · change 128 ≤ _
        omega
      · change _ ≤ 191
        omega
      · change 128 ≤ _
        omega
      · change _ ≤ 191
        omega

/-- Characters are decoded one after the other. -/
theorem feed_flatMap (text : String) (cs : List Char) :
    (cs.flatMap String.utf8EncodeChar).foldl feed ⟨text, none⟩ =
      ⟨text ++ String.ofList cs, none⟩ := by
  induction cs generalizing text with
  | nil => simp
  | cons c cs ih =>
      rw [List.flatMap_cons, List.foldl_append, feed_utf8EncodeChar, ih,
        String.ofList_cons, String.push_eq_append, String.append_assoc]

end Decoder

/-- The encoding of a text is decoded to the text. -/
theorem ofUtf8_toUTF8 (s : String) : ofUtf8 s.toUTF8.data.toList = s := by
  have hencoding : s.toUTF8.data.toList = s.toList.flatMap String.utf8EncodeChar := by
    rw [String.toUTF8, ← String.utf8Encode_toList, List.utf8Encode,
      List.data_toByteArray]
  rw [ofUtf8, hencoding, Decoder.feed_flatMap]
  simp [Decoder.finish]

end WasmVm.Text
