/-
# Lines of the decoded text

A source is cut into lines while it is still bytes, and each line is decoded by
itself. The same lines come out if the whole source is decoded first and the text
is cut at its line feeds: a line feed is an ASCII byte, so it is never a part of
another character and ends whatever is malformed before it, and the same goes for
a carriage return. If reading fails after some bytes, the lines whose line feeds
were read are there as ever, and the failure takes the place of the next one. It
has the next number too, as long as there is one.

What the decoded text of any bytes is, is said by `Utf8.Lossy`.

Key definitions: `Source.texts`, `Source.textLines`.
Key theorems: `Source.splitOn_decode`, `Source.decode_dropReturn`,
`Source.texts_eq_textLines`, `Source.getElem?_number`, `Source.lines_take_failed`,
`Source.lines_of_decoded`, `Source.numbers_run_out`.
-/
import TenBit.Proofs.Source.Rewriting
import TenBit.Proofs.Text.Malformed

namespace TenBit
namespace Source

/-- The texts of the lines of a source, however long. -/
def texts (bytes : List UInt8) : List Text :=
  let r := pieces 0x0A bytes
  (r.1.map dropReturn ++ if r.2.isEmpty then [] else [r.2]).map Utf8.decode

/-- The lines of a text. It is cut at its line feeds; a carriage return belongs to a
line feed right behind it, and nothing behind the last line feed is no line. -/
def textLines (t : Text) : List Text :=
  let segments := t.splitOn '\n'
  segments.dropLast.map withoutReturn ++ segments.getLast?.toList.filter fun s => !s.isEmpty

/-! ### Cutting and decoding -/

/-- **Decoding goes through the cuts.** -/
theorem splitOn_decode (bs : List UInt8) :
    (Utf8.decode bs).splitOn '\n' = (bs.splitOn 0x0A).map Utf8.decode := by
  by_cases hmem : 0x0A ∈ bs
  · obtain ⟨p, rest, rfl, hp⟩ := List.eq_append_cons_of_mem hmem
    have hcut : Utf8.decode (p ++ 0x0A :: rest) = Utf8.decode p ++ '\n' :: Utf8.decode rest :=
      Utf8.decodeFrom_append_ascii (by decide) rest Utf8.wide_none
    rw [hcut, List.splitOn_append_cons_self_of_not_mem (mt Utf8.newline_mem_of_decode hp),
      List.splitOn_append_cons_self_of_not_mem hp, List.map_cons, splitOn_decode rest]
  · rw [List.splitOn_eq_singleton hmem, List.splitOn_eq_singleton (mt Utf8.newline_mem_of_decode hmem)]
    rfl
termination_by bs.length
decreasing_by
  subst_vars
  simp only [List.length_append, List.length_cons]
  omega

/-- **A carriage return at the end is one before and after decoding.** -/
theorem decode_dropReturn (p : List UInt8) :
    Utf8.decode (dropReturn p) = withoutReturn (Utf8.decode p) := by
  unfold dropReturn withoutReturn
  by_cases hlast : p.getLast? = some 0x0D
  · obtain ⟨q, rfl⟩ := List.getLast?_eq_some_iff.1 hlast
    have hcut : Utf8.decode (q ++ [0x0D]) = Utf8.decode q ++ ['\r'] :=
      Utf8.decodeFrom_append_ascii (by decide) [] Utf8.wide_none
    rw [if_pos hlast, hcut, if_pos List.getLast?_concat, List.dropLast_concat, List.dropLast_concat]
  · have hdecoded : (Utf8.decode p).getLast? ≠ some '\r' := by
      intro h
      obtain ⟨b, hb, hnat⟩ := Utf8.getLast?_of_decodeFrom (by decide) Utf8.wide_none h
      rw [← UInt8.toNat_inj.1 (show (0x0D : UInt8).toNat = b.toNat from hnat)] at hb
      exact hlast hb
    rw [if_neg hlast, if_neg hdecoded]

theorem isEmpty_decode (bs : List UInt8) : (Utf8.decode bs).isEmpty = bs.isEmpty := by
  cases bs with
  | nil => rfl
  | cons b bs =>
    rw [List.isEmpty_cons, List.isEmpty_eq_false_iff]
    intro h
    cases (Utf8.eq_nil_of_decodeFrom Utf8.wide_none h).2

/-- **The lines are those of the decoded text.** -/
theorem texts_eq_textLines (bytes : List UInt8) :
    texts bytes = textLines (Utf8.decode bytes) := by
  have hsegments : (Utf8.decode bytes).splitOn '\n' =
      (pieces 0x0A bytes).1.map Utf8.decode ++ [Utf8.decode (pieces 0x0A bytes).2] := by
    rw [splitOn_decode, splitOn_eq_pieces, List.map_append, List.map_singleton]
  unfold texts textLines
  simp only [hsegments, List.dropLast_concat, List.getLast?_concat, List.map_append, List.map_map]
  congr 1
  · exact List.map_congr_left fun p _ => decode_dropReturn p
  · cases hrest : (pieces 0x0A bytes).2.isEmpty <;> simp [isEmpty_decode, hrest]

/-! ### Numbers -/

theorem contents_eq_map (limit : Nat) (bytes : List UInt8) : contents limit ⟨bytes, none⟩ =
    (texts bytes).map fun t => if limit < t.length then .tooLong else .text t := by
  unfold contents texts ending content
  simp only [List.map_append, List.map_map]
  congr 1
  split <;> rfl

/-- Lines are counted up to the last number there is. -/
theorem getElem?_number : ∀ (cs : List Content) (n i : Nat),
    (number n cs)[i]? = cs[i]?.map fun c => (min (n + i + 1) lastNumber, c)
  | [], _, _ => rfl
  | c :: cs, n, 0 => rfl
  | c :: cs, n, i + 1 => by
    have hnumber : min (nextNumber n + i + 1) lastNumber = min (n + (i + 1) + 1) lastNumber := by
      unfold nextNumber
      omega
    rw [number, List.getElem?_cons_succ, getElem?_number cs (nextNumber n) i, hnumber,
      List.getElem?_cons_succ]

theorem map_snd_number : ∀ (n : Nat) (cs : List Content), (number n cs).map Prod.snd = cs
  | _, [] => rfl
  | n, c :: cs => by rw [number, List.map_cons, map_snd_number]

theorem number_take (n k : Nat) (cs : List Content) :
    number n (cs.take k) = (number n cs).take k := by
  refine List.ext_getElem? fun i => ?_
  rw [getElem?_number, List.getElem?_take, List.getElem?_take, getElem?_number]
  split <;> rfl

theorem number_concat (n : Nat) (cs : List Content) (c : Content) :
    number n (cs ++ [c]) = number n cs ++ [(min (n + cs.length + 1) lastNumber, c)] := by
  have hlength : (number n cs).length = cs.length := by
    rw [← List.length_map Prod.snd, map_snd_number]
  refine List.ext_getElem? fun i => ?_
  rw [getElem?_number, List.getElem?_append, List.getElem?_append, hlength, getElem?_number]
  split
  · rfl
  · cases hi : i - cs.length with
    | zero =>
      have he : i = cs.length := by omega
      rw [he]
      rfl
    | succ j => rfl

/-! ### Reading that fails -/

/-- The lines whose line feeds are among the first bytes come first. -/
theorem take_contents (limit : Nat) (bytes : List UInt8) (k : Nat) :
    (contents limit ⟨bytes, none⟩).take ((bytes.take k).count 0x0A) =
      (pieces 0x0A (bytes.take k)).1.map fun p => content limit (dropReturn p) := by
  have htake := take_pieces_append 0x0A (bytes.drop k) (bytes.take k)
  rw [List.take_append_drop] at htake
  have hle : (bytes.take k).count 0x0A ≤ (pieces 0x0A bytes).1.length := by
    rw [← length_pieces, ← htake, List.length_take]
    exact Nat.min_le_right _ _
  rw [contents, List.take_append_of_le_length (by rwa [List.length_map]), ← List.map_take, htake]

/-- A failure comes behind the lines that ended before it. -/
theorem lines_take_failed (limit : Nat) (bytes : List UInt8) (k : Nat) (reason : String) :
    lines limit ⟨bytes.take k, some reason⟩ =
      (lines limit ⟨bytes, none⟩).take ((bytes.take k).count 0x0A) ++
        [(nextNumber ((bytes.take k).count 0x0A), .unreadable reason)] := by
  rw [lines, lines, ← number_take, take_contents, contents, ending, number_concat, List.length_map,
    length_pieces, Nat.zero_add]
  rfl

/-- The number behind that of a line, unless that is the last one there is. -/
theorem nextNumber_eq {n : Nat} (h : n ≤ lastNumber) :
    nextNumber n = if n < 2 ^ 32 - 1 then n + 1 else n := by
  unfold lastNumber at h
  unfold nextNumber lastNumber
  split <;> omega

theorem length_lines (limit : Nat) (bytes : List UInt8) :
    (lines limit ⟨bytes, none⟩).length = (textLines (Utf8.decode bytes)).length := by
  rw [lines, ← List.length_map Prod.snd, map_snd_number, contents_eq_map, List.length_map,
    texts_eq_textLines]

/-- There are at least as many lines as line feeds. -/
theorem count_le_length_textLines (bytes : List UInt8) :
    bytes.count 0x0A ≤ (textLines (Utf8.decode bytes)).length := by
  rw [← texts_eq_textLines, texts, List.length_map, List.length_append, List.length_map,
    length_pieces]
  exact Nat.le_add_right _ _

/-- **Reading a source is cutting its decoded text into lines.** Malformed bytes are
decoded as replacements. The lines are numbered from one on, and a line is refused if
it has too many characters, whatever the others are. If reading fails after `k` bytes
then the lines that ended in them are read as they are without the failure, and the
failure follows alone, with the number behind theirs; if theirs is the last there is,
it has that number again. -/
theorem lines_of_decoded {bytes : List UInt8} (limit : Nat)
    (h : (textLines (Utf8.decode bytes)).length < 2 ^ 32) :
    (∀ t, Utf8.Lossy bytes t ↔ Utf8.decode bytes = t) ∧
    (lines limit ⟨bytes, none⟩).length = (textLines (Utf8.decode bytes)).length ∧
    (∀ i, (lines limit ⟨bytes, none⟩)[i]? =
      (textLines (Utf8.decode bytes))[i]?.map fun t =>
        (i + 1, if limit < t.length then .tooLong else .text t)) ∧
    ∀ k reason, ∃ n, lines limit ⟨bytes.take k, some reason⟩ =
        (lines limit ⟨bytes, none⟩).take ((bytes.take k).count 0x0A) ++ [(n, .unreadable reason)] ∧
      n = if (bytes.take k).count 0x0A < 2 ^ 32 - 1 then (bytes.take k).count 0x0A + 1
        else (bytes.take k).count 0x0A := by
  refine ⟨fun t => Utf8.lossy_iff, length_lines limit bytes, fun i => ?_, fun k reason => ?_⟩
  · rw [lines, getElem?_number, contents_eq_map, texts_eq_textLines, List.getElem?_map,
      Option.map_map]
    refine Option.map_congr fun t ht => ?_
    have hi := (List.getElem?_eq_some_iff.1 ht).1
    have hnumber : min (0 + i + 1) lastNumber = i + 1 := by
      unfold lastNumber
      omega
    rw [Function.comp_apply, hnumber]
  · refine ⟨_, lines_take_failed limit bytes k reason, nextNumber_eq ?_⟩
    have hfront := (List.take_sublist k bytes).count_le 0x0A
    have hlines := count_le_length_textLines bytes
    unfold lastNumber
    omega

/-- Two malformed lines, and a carriage return that no line feed follows. -/
def malformedSample : List UInt8 := [0xE2, 0x82, 0x0D, 0x0A, 0x61, 0xF0, 0x9F, 0x0A, 0x0D]

theorem lines_of_decoded_malformed :
    (textLines (Utf8.decode malformedSample)).length < 2 ^ 32 ∧
    Utf8.Lossy malformedSample "\ufffd\r\na\ufffd\n\r".toList ∧
    lines 1 ⟨malformedSample, none⟩ = [(1, .text ['\ufffd']), (2, .tooLong), (3, .text ['\r'])] ∧
    lines 1 ⟨malformedSample.take 7, some "gone"⟩ =
      [(1, .text ['\ufffd']), (2, .unreadable "gone")] := by
  have hfew : (textLines (Utf8.decode malformedSample)).length < 2 ^ 32 := by decide
  obtain ⟨hdecoded, -, hread, hfailed⟩ := lines_of_decoded 1 hfew
  have hwhole : lines 1 ⟨malformedSample, none⟩ =
      [(1, .text ['\ufffd']), (2, .tooLong), (3, .text ['\r'])] := by
    refine List.ext_getElem? fun i => ?_
    rw [hread]
    match i with
    | 0 | 1 | 2 => rfl
    | i + 3 => rfl
  refine ⟨hfew, (hdecoded _).2 rfl, hwhole, ?_⟩
  obtain ⟨n, hlines, hn⟩ := hfailed 7 "gone"
  rw [hlines, hwhole, hn]
  rfl

/-! ### Sources at the limits -/

theorem texts_replicate (n : Nat) : texts (List.replicate n 0x0A) = List.replicate n [] := by
  have hpieces : pieces (0x0A : UInt8) (List.replicate n 0x0A) = (List.replicate n [], []) := by
    induction n with
    | zero => rfl
    | succ n ih =>
      rw [List.replicate_succ, pieces, ih]
      rfl
  rw [texts, hpieces]
  simp only [List.map_replicate, List.isEmpty_nil, if_true, List.append_nil]
  rfl

/-- A source of one line feed for each number has fewer than `2 ^ 32` lines. If
reading fails behind them, the failure does not have the next number: there is none,
and the last line and the failure have the same. An empty source has a segment
between its line feeds, of which it has none, but no line. -/
theorem numbers_run_out :
    (textLines (Utf8.decode (List.replicate (2 ^ 32 - 1) 0x0A))).length = 2 ^ 32 - 1 ∧
    lines maxLength ⟨List.replicate (2 ^ 32 - 1) 0x0A, some "gone"⟩ =
      lines maxLength ⟨List.replicate (2 ^ 32 - 1) 0x0A, none⟩ ++
        [(2 ^ 32 - 1, .unreadable "gone")] ∧
    lines maxLength ⟨[], none⟩ = [] ∧ (Utf8.decode []).splitOn '\n' = [[]] := by
  have hcount : (List.replicate (2 ^ 32 - 1) (0x0A : UInt8)).count 0x0A = 2 ^ 32 - 1 :=
    List.count_replicate_self
  have hlength : (textLines (Utf8.decode (List.replicate (2 ^ 32 - 1) 0x0A))).length =
      2 ^ 32 - 1 := by
    rw [← texts_eq_textLines, texts_replicate, List.length_replicate]
  refine ⟨hlength, ?_, rfl, rfl⟩
  have hfailed := lines_take_failed maxLength (List.replicate (2 ^ 32 - 1) 0x0A) (2 ^ 32 - 1) "gone"
  rw [List.take_of_length_le (Nat.le_of_eq List.length_replicate), hcount,
    List.take_of_length_le (Nat.le_of_eq ((length_lines _ _).trans hlength))] at hfailed
  exact hfailed

end Source
end TenBit
