/-
The order of keys is the order of their bytes: texts compare by their characters as their
UTF-8 forms compare by bytes (`Text.Utf8.compare_eq_lt_iff_encode`).
-/
import PropertyGraph.Proofs.LawfulStore
import PropertyGraph.Text.Utf8

namespace PropertyGraph

namespace Text.Utf8

theorem byte_cons_lt {a b : Nat} {l m : List UInt8} (ha : a < 256) (hb : b < 256)
    (h : a < b ∨ a = b ∧ l < m) : UInt8.ofNat a :: l < UInt8.ofNat b :: m := by
  rw [List.cons_lt_cons_iff]
  rcases h with h | ⟨rfl, h⟩
  · refine .inl (UInt8.lt_iff_toNat_lt.2 ?_)
    rw [UInt8.toNat_ofNat', UInt8.toNat_ofNat']
    omega
  · exact .inr ⟨rfl, h⟩

/-- The bytes of a character are before those of a later one, whatever follows. -/
theorem encodeChar_lt {c d : Char} (h : c < d) (r r' : List UInt8) :
    String.utf8EncodeChar c ++ r < String.utf8EncodeChar d ++ r' := by
  have hv : c.val.toNat < d.val.toNat := h
  have hd : d.val.toNat < 1114112 := by
    rcases d.valid with h | h <;> omega
  simp only [String.utf8EncodeChar]
  generalize c.val.toNat = v at hv ⊢
  generalize d.val.toNat = u at hv hd ⊢
  -- Forms of different lengths differ in the first byte, forms of one length in the first byte
  -- that holds the highest bits in which the characters differ.
  split_ifs <;> simp only [List.cons_append, List.nil_append] <;>
    try exact byte_cons_lt (by omega) (by omega) (.inl (by omega))
  · rcases Nat.lt_or_ge (v / 64) (u / 64) with hlt | hge
    · exact byte_cons_lt (by omega) (by omega) (.inl (by omega))
    · exact byte_cons_lt (by omega) (by omega) (.inr ⟨by omega,
        byte_cons_lt (by omega) (by omega) (.inl (by omega))⟩)
  · rcases Nat.lt_or_ge (v / 4096) (u / 4096) with hlt | hge
    · exact byte_cons_lt (by omega) (by omega) (.inl (by omega))
    · refine byte_cons_lt (by omega) (by omega) (.inr ⟨by omega, ?_⟩)
      rcases Nat.lt_or_ge (v / 64) (u / 64) with hlt | hge
      · exact byte_cons_lt (by omega) (by omega) (.inl (by omega))
      · exact byte_cons_lt (by omega) (by omega) (.inr ⟨by omega,
          byte_cons_lt (by omega) (by omega) (.inl (by omega))⟩)
  · rcases Nat.lt_or_ge (v / 262144) (u / 262144) with hlt | hge
    · exact byte_cons_lt (by omega) (by omega) (.inl (by omega))
    · refine byte_cons_lt (by omega) (by omega) (.inr ⟨by omega, ?_⟩)
      rcases Nat.lt_or_ge (v / 4096) (u / 4096) with hlt | hge
      · exact byte_cons_lt (by omega) (by omega) (.inl (by omega))
      · refine byte_cons_lt (by omega) (by omega) (.inr ⟨by omega, ?_⟩)
        rcases Nat.lt_or_ge (v / 64) (u / 64) with hlt | hge
        · exact byte_cons_lt (by omega) (by omega) (.inl (by omega))
        · exact byte_cons_lt (by omega) (by omega) (.inr ⟨by omega,
            byte_cons_lt (by omega) (by omega) (.inl (by omega))⟩)

theorem encodeChar_ne_nil (c : Char) : String.utf8EncodeChar c ≠ [] := by
  simp only [String.utf8EncodeChar]
  split_ifs <;> simp

theorem encode_lt {l m : List Char} (h : l < m) :
    l.flatMap String.utf8EncodeChar < m.flatMap String.utf8EncodeChar := by
  induction l generalizing m with
  | nil =>
    cases m with
    | nil => simp at h
    | cons d m =>
      rw [List.flatMap_cons, List.flatMap_nil]
      cases hd : String.utf8EncodeChar d with
      | nil => exact absurd hd (encodeChar_ne_nil d)
      | cons b bs => exact List.nil_lt_cons _ _
  | cons c l ih =>
    cases m with
    | nil => simp at h
    | cons d m =>
      rw [List.flatMap_cons, List.flatMap_cons]
      rcases List.cons_lt_cons_iff.1 h with hlt | ⟨rfl, hlt⟩
      · exact encodeChar_lt hlt _ _
      · exact List.append_left_lt (ih hlt)

/-- A text is before another where its bytes are. -/
theorem compare_eq_lt_iff_encode {a b : String} : compare a b = .lt ↔ encode a < encode b := by
  rw [compare_eq_lt_iff]
  refine ⟨encode_lt, fun h => ?_⟩
  by_contra hnot
  rcases List.le_iff_lt_or_eq.1 (List.not_lt.1 hnot) with hlt | heq
  · exact List.lt_asymm h (encode_lt hlt)
  · rw [encode, encode, heq] at h
    exact List.lt_irrefl _ h

end Text.Utf8

end PropertyGraph
