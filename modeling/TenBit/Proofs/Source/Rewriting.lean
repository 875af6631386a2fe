/-
# Lines that were written are read again

A line that was read holds no line feed. If lines without line feeds are written
one under the other and the text is read, the same lines come back, except that a
carriage return at the end of a line is taken for a part of the line's ending.

Key definition: `Source.withoutReturn`.
Key theorems: `Source.not_mem_of_contents`, `Source.dropReturn_encode`,
`Source.contents_encode`.
-/
import TenBit.Proofs.Source.Pieces
import TenBit.Proofs.Text.Utf8

namespace TenBit
namespace Source

/-- The text without a carriage return at its end. -/
def withoutReturn (t : Text) : Text := if t.getLast? = some '\r' then t.dropLast else t

theorem length_withoutReturn_le (t : Text) : (withoutReturn t).length ≤ t.length := by
  unfold withoutReturn
  split
  · rw [List.length_dropLast]
    omega
  · exact Nat.le_refl _

theorem mem_of_mem_dropReturn {bs : List UInt8} {b : UInt8} (h : b ∈ dropReturn bs) : b ∈ bs := by
  unfold dropReturn at h
  split at h
  · exact List.dropLast_subset _ h
  · exact h

/-- A line of a source is one line. -/
theorem not_mem_of_content {limit : Nat} {bs : List UInt8} {t : Text} (hbs : 0x0A ∉ bs)
    (h : content limit bs = .text t) : '\n' ∉ t := by
  unfold content at h
  simp only at h
  split at h
  · cases h
  · cases h
    exact fun hnewline => hbs (Utf8.newline_mem_of_decode hnewline)

/-- **No line of a source holds a line feed.** -/
theorem not_mem_of_contents {limit : Nat} {input : Input} {t : Text}
    (h : .text t ∈ contents limit input) : '\n' ∉ t := by
  obtain ⟨hpieces, hrest⟩ := not_mem_pieces 0x0A input.bytes
  rcases List.mem_append.1 h with h | h
  · obtain ⟨p, hp, hcontent⟩ := List.mem_map.1 h
    exact not_mem_of_content (fun hb => hpieces p hp (mem_of_mem_dropReturn hb)) hcontent
  · unfold ending at h
    split at h
    · cases List.mem_singleton.1 h
    · split at h
      · cases h
      · exact not_mem_of_content hrest (List.mem_singleton.1 h).symm

theorem mem_of_mem_number {k : Nat} {c : Content} : ∀ {cs : List Content} {n : Nat},
    (k, c) ∈ number n cs → c ∈ cs
  | c' :: cs, n, h => by
    rcases List.mem_cons.1 h with h | h
    · cases h
      exact List.mem_cons_self
    · exact List.mem_cons_of_mem _ (mem_of_mem_number h)

/-! ### Writing and reading -/

theorem encode_append (t u : Text) : Utf8.encode (t ++ u) = Utf8.encode t ++ Utf8.encode u :=
  List.flatMap_append

/-- The byte 0x0D at the end is a carriage return at the end. -/
theorem getLast?_encode_concat (u : Text) (c : Char) :
    (Utf8.encode (u ++ [c])).getLast? = some 0x0D ↔ c = '\r' := by
  have hone : Utf8.encode [c] = String.utf8EncodeChar c := List.flatMap_singleton _ _
  have hlast : (Utf8.encode (u ++ [c])).getLast? = (String.utf8EncodeChar c).getLast? := by
    rw [encode_append, hone, List.getLast?_append]
    cases hbytes : (String.utf8EncodeChar c).getLast? with
    | some b => rfl
    | none => exact absurd (List.getLast?_eq_none_iff.1 hbytes) (Utf8.encodeChar_ne_nil c)
  rw [hlast]
  constructor
  · intro h
    have hnat : c.toNat = 13 :=
      Utf8.toNat_of_mem_encodeChar (List.mem_of_getLast? h) (by decide)
    rw [← Char.ofNat_toNat c, hnat]
  · rintro rfl
    decide

theorem dropReturn_encode (t : Text) : dropReturn (Utf8.encode t) = Utf8.encode (withoutReturn t) := by
  rcases List.eq_nil_or_concat t with rfl | ⟨u, c, rfl⟩
  · rfl
  · have hlast : (u ++ [c]).getLast? = some '\r' ↔ c = '\r' := by
      rw [List.getLast?_concat, Option.some.injEq]
    rw [List.concat_eq_append, dropReturn, withoutReturn]
    by_cases hc : c = '\r'
    · have hbytes : Utf8.encode (u ++ [c]) = Utf8.encode u ++ [0x0D] := by
        rw [encode_append, hc]
        rfl
      rw [if_pos (hlast.2 hc), if_pos ((getLast?_encode_concat u c).2 hc), hbytes,
        List.dropLast_concat, List.dropLast_concat]
    · rw [if_neg (mt hlast.1 hc), if_neg (mt (getLast?_encode_concat u c).1 hc)]

/-- **Lines that were written are read again.** -/
theorem contents_encode {limit : Nat} {ts : List Text}
    (h : ∀ t ∈ ts, '\n' ∉ t ∧ t.length ≤ limit) :
    contents limit ⟨Utf8.encode (ts.flatMap fun t => t ++ ['\n']), none⟩ =
      ts.map fun t => .text (withoutReturn t) := by
  have hbytes : Utf8.encode (ts.flatMap fun t => t ++ ['\n']) =
      (ts.map Utf8.encode).flatMap fun p => p ++ [0x0A] := by
    rw [Utf8.encode, List.flatMap_assoc, List.flatMap_map]
    congr 1
    funext t
    rw [List.flatMap_append]
    rfl
  have hpieces : ∀ p ∈ ts.map Utf8.encode, 0x0A ∉ p := by
    intro p hp hmem
    obtain ⟨t, ht, rfl⟩ := List.mem_map.1 hp
    exact (h t ht).1 (Utf8.newline_mem_of_encode hmem)
  simp only [contents, hbytes, pieces_join hpieces, ending, List.isEmpty_nil, if_true,
    List.append_nil, List.map_map]
  refine List.map_congr_left fun t ht => ?_
  have hlength := Nat.le_trans (length_withoutReturn_le t) (h t ht).2
  simp only [Function.comp_apply, dropReturn_encode, content, Utf8.decode_encode]
  exact if_neg (by omega)

end Source
end TenBit
