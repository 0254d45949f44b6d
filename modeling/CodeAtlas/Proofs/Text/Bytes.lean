import CodeAtlas.Text.Bytes

/-!
# Bytes and their text

Bytes that are those of a text are read as this text (`ofBytes_bytesOf`). Of other bytes a text keeps
less, but it makes nothing up: each of its characters is spelled out in the bytes or is a replacement
(`mem_ofBytes`), and where no replacement stands the bytes are those of their text
(`bytesOf_ofBytes`).
-/

namespace CodeAtlas.Text

open String (utf8EncodeChar)

variable {bytes rest : List UInt8} {c : Char}

theorem bytesOf_eq (text : String) : bytesOf text = text.toList.flatMap utf8EncodeChar := by
  rw [bytesOf, ← String.utf8Encode_toList, List.utf8Encode, List.toList_data_toByteArray]

/-! ## The first character -/

theorem firstChar?_append (c : Char) (rest : List UInt8) :
    firstChar? (utf8EncodeChar c ++ rest) = some c := by
  have single : (utf8EncodeChar c).toByteArray.utf8DecodeChar? 0 = some c := by
    simpa [List.utf8Encode] using List.utf8DecodeChar?_utf8Encode_singleton (c := c)
  rw [firstChar?, List.toByteArray_append]
  exact ByteArray.utf8DecodeChar?_append_eq_some single _

/-- A character is read off the bytes only where its UTF-8 stands, so decoding invents none. -/
theorem exists_append_of_firstChar? (h : firstChar? bytes = some c) :
    ∃ rest, bytes = utf8EncodeChar c ++ rest := by
  have split := congrArg (fun b => b.data.toList) (ByteArray.eq_of_utf8DecodeChar?_eq_some h)
  simp only [ByteArray.data_append, Array.toList_append, List.toList_data_toByteArray] at split
  exact ⟨_, split⟩

/-! ## All characters -/

/-- Bytes that still belong to a character are passed over and leave no trace. -/
theorem decodeFrom_drop (skipped : Nat) (bytes : List UInt8) :
    decodeFrom skipped bytes = decodeFrom 0 (bytes.drop skipped) := by
  induction bytes generalizing skipped with
  | nil => simp [decodeFrom]
  | cons b rest ih =>
    cases skipped with
    | zero => rfl
    | succ skipped => exact ih skipped

/-- The UTF-8 of a character is read as this character, whatever follows. -/
theorem decodeFrom_append (c : Char) (rest : List UInt8) :
    decodeFrom 0 (utf8EncodeChar c ++ rest) = c :: decodeFrom 0 rest := by
  have length : (utf8EncodeChar c).length = c.utf8Size := String.length_utf8EncodeChar c
  have first := firstChar?_append c rest
  cases hbytes : utf8EncodeChar c with
  | nil =>
    rw [hbytes] at length
    exact absurd length (Nat.ne_of_lt c.utf8Size_pos)
  | cons b front =>
    rw [hbytes] at length first
    rw [List.cons_append] at first ⊢
    rw [decodeFrom, first]
    dsimp only
    rw [decodeFrom_drop, ← length, List.length_cons, Nat.add_sub_cancel, List.drop_left]

/-- The ways in which a row of bytes can begin, for an induction along `decodeFrom`: with a
character, or with bytes that one replacement stands for. -/
theorem bytes_induction {motive : List UInt8 → Prop} (nil : motive [])
    (char : ∀ c rest, motive rest → motive (utf8EncodeChar c ++ rest))
    (broken : ∀ b front rest, decodeFrom 0 (b :: (front ++ rest)) = replacement :: decodeFrom 0 rest →
      motive rest → motive (b :: (front ++ rest))) (bytes : List UInt8) : motive bytes := by
  induction hlength : bytes.length using Nat.strongRecOn generalizing bytes with
  | ind length ih =>
    subst hlength
    cases bytes with
    | nil => exact nil
    | cons b tail =>
      cases hfirst : firstChar? (b :: tail) with
      | some c =>
        obtain ⟨rest, heq⟩ := exists_append_of_firstChar? hfirst
        have shorter : rest.length < (b :: tail).length := by
          have size := c.utf8Size_pos
          rw [heq, List.length_append, String.length_utf8EncodeChar]
          omega
        rw [heq]
        exact char c rest (ih _ shorter rest rfl)
      | none =>
        have split := List.take_append_drop (brokenLength (b :: tail) - 1) tail
        have shorter : (tail.drop (brokenLength (b :: tail) - 1)).length < (b :: tail).length := by
          rw [List.length_drop, List.length_cons]
          omega
        have decoded : decodeFrom 0 (b :: tail) =
            replacement :: decodeFrom 0 (tail.drop (brokenLength (b :: tail) - 1)) := by
          rw [decodeFrom, hfirst]
          dsimp only
          rw [decodeFrom_drop]
        rw [← split] at decoded ⊢
        exact broken b _ _ (by rw [decoded, split]) (ih _ shorter _ rfl)

theorem decodeFrom_flatMap (chars : List Char) :
    decodeFrom 0 (chars.flatMap utf8EncodeChar) = chars := by
  induction chars with
  | nil => rfl
  | cons c chars ih => rw [List.flatMap_cons, decodeFrom_append, ih]

/-- A character is spelled out in the bytes, unless it stands for some that spell none. -/
theorem mem_decodeFrom (h : c ∈ decodeFrom 0 bytes) :
    c = replacement ∨ utf8EncodeChar c ⊆ bytes := by
  induction bytes using bytes_induction with
  | nil => cases h
  | char first rest ih =>
    rw [decodeFrom_append] at h
    rcases List.mem_cons.mp h with rfl | h
    · exact .inr (List.subset_append_left _ _)
    · exact (ih h).imp_right fun sub => List.subset_append_of_subset_right _ sub
  | broken b front rest hdecoded ih =>
    rw [hdecoded] at h
    rcases List.mem_cons.mp h with rfl | h
    · exact .inl rfl
    · refine (ih h).imp_right fun sub => ?_
      exact List.subset_cons_of_subset _ (List.subset_append_of_subset_right _ sub)

/-- Where no replacement comes out, nothing is lost: the characters spell the bytes again. -/
theorem flatMap_decodeFrom (h : replacement ∉ decodeFrom 0 bytes) :
    (decodeFrom 0 bytes).flatMap utf8EncodeChar = bytes := by
  induction bytes using bytes_induction with
  | nil => rfl
  | char first rest ih =>
    rw [decodeFrom_append, List.mem_cons, not_or] at h
    rw [decodeFrom_append, List.flatMap_cons, ih h.2]
  | broken b front rest hdecoded ih =>
    rw [hdecoded] at h
    exact absurd List.mem_cons_self h

/-! ## The text of bytes -/

theorem ofBytes_bytesOf (text : String) : ofBytes (bytesOf text) = text := by
  rw [bytesOf_eq, ofBytes, decodeFrom_flatMap, String.ofList_toList]

theorem bytesOf_ofBytes (h : replacement ∉ (ofBytes bytes).toList) :
    bytesOf (ofBytes bytes) = bytes := by
  rw [ofBytes, String.toList_ofList] at h
  rw [bytesOf_eq, ofBytes, String.toList_ofList, flatMap_decodeFrom h]

theorem mem_ofBytes (h : c ∈ (ofBytes bytes).toList) :
    c = replacement ∨ utf8EncodeChar c ⊆ bytes := by
  rw [ofBytes, String.toList_ofList] at h
  exact mem_decodeFrom h

end CodeAtlas.Text
