import WireCapture.Proofs.FrameImage

/-!
# Fields of text

A field of text gives its length first or has a fixed width. Either way it holds the
text of its content up to the first NUL byte. A text that was written there comes back,
whatever stands behind a NUL; bytes that are no text still give one, which is not much
longer, has no NUL character and comes back when it is written in its turn.
-/
namespace WireCapture.Text

namespace Utf8

theorem zero_not_mem_encode {s : String} (h : '\x00' ∉ s.toList) : 0 ∉ encode s :=
  fun hzero => h (zero_mem_encode hzero)

theorem takeWhile_append_zero {front : Bytes} (h : 0 ∉ front) (junk : Bytes) :
    (front ++ 0 :: junk).takeWhile (· != 0) = front := by
  have hfront : ∀ b ∈ front, (b != 0) = true :=
    fun b hb => bne_iff_ne.mpr fun hzero => h (hzero ▸ hb)
  rw [List.takeWhile_append_of_pos hfront, List.takeWhile_cons_of_neg (by simp), List.append_nil]

/-- A character takes as many bytes as its piece, and U+FFFD three for at least one. -/
theorem length_encode_decodeLossy_le (bs : Bytes) :
    (encode (decodeLossy bs)).length ≤ 3 * bs.length := by
  rw [decodeLossy, encode_ofList]
  induction bs using induction_on_pieces with
  | nil => simp [pieces_nil]
  | cons a rest ih =>
      rw [pieces_cons, List.map_cons, List.flatMap_cons, List.length_append]
      cases hc : (piece a rest).1 with
      | some c =>
          have hpiece : piece a rest = (some c, (piece a rest).2) := Prod.ext hc rfl
          have hlength := congrArg List.length (eq_encodeChar_of_piece hpiece)
          rw [List.length_append] at hlength
          rw [Option.getD_some]
          omega
      | none =>
          have hle := length_piece_le a rest
          have hmark : (String.utf8EncodeChar '\uFFFD').length = 3 := rfl
          rw [Option.getD_none, hmark, List.length_cons]
          omega

end Utf8

/-- Contents that begin with a text, which ends with them or in front of a NUL byte. -/
inductive Begins (s : String) : Bytes → Prop
  | whole : Begins s (Utf8.encode s)
  | cut (junk : Bytes) : Begins s (Utf8.encode s ++ 0 :: junk)

theorem Begins.cString {s : String} {content : Bytes} (h : Begins s content)
    (hs : '\x00' ∉ s.toList) : Utf8.cString content = s := by
  cases h with
  | whole => exact Utf8.cString_encode hs
  | cut junk =>
      have hfront := Utf8.takeWhile_append_zero (Utf8.zero_not_mem_encode hs) junk
      rw [Utf8.cString, hfront, Utf8.decodeLossy_encode]

theorem countedText_content {width : Nat} {content : Bytes} (h : content.length < 256 ^ width)
    (pos : Nat) (suffix : Bytes) :
    Reader.countedText width ⟨pos, Word.bytes width content.length ++ content ++ suffix⟩ =
      .ok (Utf8.cString content) ⟨pos + (width + content.length), suffix⟩ := by
  have hreads := (Reader.reads_counted h (Nat.mul_one _).symm).map (g := Utf8.cString)
  have hread := Reader.reads_iff.mp hreads pos suffix
  rwa [List.length_append, Word.length_bytes] at hread

theorem fixedText_content {width : Nat} {content : Bytes} (h : content.length = width)
    (pos : Nat) (suffix : Bytes) :
    Reader.fixedText width ⟨pos, content ++ suffix⟩ =
      .ok (Utf8.cString content) ⟨pos + width, suffix⟩ := by
  have hreads := (Reader.reads_take h).map (g := Utf8.cString)
  have hread := Reader.reads_iff.mp hreads pos suffix
  rwa [h] at hread

theorem fixedText_padded {width : Nat} {s : String} (hs : '\x00' ∉ s.toList)
    (h : (Utf8.encode s).length ≤ width) (pos : Nat) (suffix : Bytes) :
    Reader.fixedText width ⟨pos, Frame.padded width s ++ suffix⟩ =
      .ok s ⟨pos + width, suffix⟩ := by
  have hcontent : Utf8.cString (Frame.padded width s) = s := by
    rw [Frame.padded, Utf8.cString_encode_append, Utf8.beforeNul_eq_self_iff.mpr hs]
  rw [fixedText_content (Frame.length_padded h), hcontent]

/-- Every content of a field is read as one text, whole. It is the text that the content
begins with, and garbage still gives a text that can be written and read again. -/
theorem field_holds_text (content : Bytes) :
    let text := Utf8.cString content
    (∀ pos suffix,
      (∀ width, content.length < 256 ^ width →
        Reader.countedText width ⟨pos, Word.bytes width content.length ++ content ++ suffix⟩ =
          .ok text ⟨pos + (width + content.length), suffix⟩) ∧
      Reader.fixedText content.length ⟨pos, content ++ suffix⟩ =
        .ok text ⟨pos + content.length, suffix⟩) ∧
    (∀ s, '\x00' ∉ s.toList → Begins s content → text = s) ∧
    '\x00' ∉ text.toList ∧
    (∀ other, other.takeWhile (· != 0) = content.takeWhile (· != 0) →
      Utf8.cString other = text) ∧
    (Utf8.encode text).length ≤ 3 * (content.takeWhile (· != 0)).length ∧
    ∀ width, (Utf8.encode text).length ≤ width → ∀ pos suffix,
      Reader.fixedText width ⟨pos, Frame.padded width text ++ suffix⟩ =
        .ok text ⟨pos + width, suffix⟩ := by
  intro text
  have hnul : '\x00' ∉ text.toList := Utf8.nul_not_mem_cString content
  refine ⟨fun pos suffix => ⟨fun width h => countedText_content h pos suffix, ?_⟩,
    fun s hs h => h.cString hs, hnul, ?_, Utf8.length_encode_decodeLossy_le _,
    fun width h => fixedText_padded hnul h⟩
  · exact fixedText_content rfl pos suffix
  · intro other h
    change Utf8.decodeLossy _ = Utf8.decodeLossy _
    rw [h]

/-- Text of two, three and four bytes a character, a NUL and bytes that are no text. The
same bytes without the NUL are lossy. -/
theorem field_holds_text_cut :
    Reader.countedText 1 ⟨0, [12] ++ (Utf8.encode "é€😀" ++ 0 :: [0xC3, 0xFF]) ++ [7]⟩ =
      .ok "é€😀" ⟨13, [7]⟩ ∧
    Utf8.cString [0xC3, 0xFF, 0, 0xC3] = "\uFFFD\uFFFD" ∧
    Reader.fixedText 8 ⟨0, Frame.padded 8 "\uFFFD\uFFFD" ++ [7]⟩ =
      .ok "\uFFFD\uFFFD" ⟨8, [7]⟩ := by
  have hlength : (Utf8.encode "é€😀" ++ 0 :: [0xC3, 0xFF]).length = 12 := by decide +kernel
  obtain ⟨hread, hbegins, -⟩ := field_holds_text (Utf8.encode "é€😀" ++ 0 :: [0xC3, 0xFF])
  have hsame := hbegins "é€😀" (by decide) (.cut [0xC3, 0xFF])
  have hcounted := (hread 0 [7]).1 1 (by rw [hlength]; decide)
  rw [hlength, hsame] at hcounted
  have hlossy : Utf8.cString [0xC3, 0xFF, 0, 0xC3] = "\uFFFD\uFFFD" := by decide +kernel
  obtain ⟨-, -, -, hother, -, hback⟩ := field_holds_text [0xC3, 0xFF]
  have htext := hother [0xC3, 0xFF, 0, 0xC3] rfl
  rw [← htext, hlossy] at hback
  exact ⟨hcounted, hlossy, hback 8 (by decide +kernel) 0 [7]⟩

end WireCapture.Text
