import WireCapture.Proofs.FrameImage

/-!
# Frames there and back

A written frame is read back whatever follows it, but for a type name with a NUL
character and a reason that only looks unknown. In the other direction every frame but
`start` keeps all of its bytes. A `start` frame loses what stands behind the end of its
name and the reserved bytes, and a name that is no UTF-8 is replaced: the replacement
may be longer than the field it came from, and then the frame cannot be written again.
-/
namespace WireCapture

theorem Reason.ofCode_code_iff {r : Reason} :
    ofCode r.code = r ↔ r ≠ .unknown 1 ∧ r ≠ .unknown 2 ∧ r ≠ .unknown 3 := by
  cases r with
  | closed => decide
  | sendTimeout => decide
  | recvTimeout => decide
  | unknown c =>
      change ofCode c = .unknown c ↔ _
      unfold ofCode
      repeat' split
      all_goals simp_all

namespace Frame

open Text

/-- Frames that arrive as they were sent. -/
def Intact : Frame → Prop
  | .start _ _ _ name _ => '\x00' ∉ name.toList
  | .cancel _ reason => reason ≠ .unknown 1 ∧ reason ≠ .unknown 2 ∧ reason ≠ .unknown 3
  | .abort _ reason => reason ≠ .unknown 1 ∧ reason ≠ .unknown 2 ∧ reason ≠ .unknown 3
  | _ => True

theorem received_eq_self_iff {f : Frame} : f.received = f ↔ f.Intact := by
  cases f with
  | start action flags size name sendId =>
      simp [received, Intact, Utf8.beforeNul_eq_self_iff]
  | cancel recvId reason => simpa [received, Intact] using Reason.ofCode_code_iff
  | abort recvId reason => simpa [received, Intact] using Reason.ofCode_code_iff
  | _ => simp [received, Intact]

theorem length_toBytes {f : Frame} {bs : Bytes} (h : f.toBytes = .ok bs) :
    bs.length = f.wireSize := by
  obtain ⟨hcheck, rfl⟩ := toBytes_eq_ok_iff.mp h
  rw [List.length_cons, (image_payload hcheck).length, ← wireSize_received, wireSize, Nat.add_comm]

/-- What is read back from a written frame, whatever follows it. -/
theorem ofBytes_of_toBytes {f : Frame} {bs : Bytes} (h : f.toBytes = .ok bs) (tail : Bytes) :
    ofBytes (bs ++ tail) = .ok (f.received, f.wireSize) := by
  obtain ⟨hcheck, rfl⟩ := toBytes_eq_ok_iff.mp h
  have hkind : f.received.kind = f.kind := by cases f <;> rfl
  refine ofBytes_eq_ok_iff.mpr ⟨f.wireSize_received.symm, _, tail, image_payload hcheck, ?_⟩
  rw [hkind, List.cons_append]

/-- A written frame arrives whatever follows it, and unchanged exactly if its name has no
NUL character and its reason no known code. -/
theorem ofBytes_toBytes_append {f : Frame} {bs : Bytes} (h : f.toBytes = .ok bs) (tail : Bytes) :
    ofBytes (bs ++ tail) = .ok (f.received, f.wireSize) ∧ (f.received = f ↔ f.Intact) :=
  ⟨ofBytes_of_toBytes h tail, received_eq_self_iff⟩

namespace Sample

/-- A `start` frame whose name field goes on behind a NUL byte. -/
def cutStart : Bytes :=
  [0, 1, 0, 0, 4, 0, 0, 0xC3, 0xA9, 0, 0x78] ++ List.replicate 124 0 ++ [5, 0, 0, 0]

theorem toBytes_cutStart : (start 1 0 1024 "é\x00x" 5).toBytes = .ok cutStart := by
  decide +kernel

end Sample

theorem ofBytes_toBytes_append_cutStart :
    (start 1 0 1024 "é\x00x" 5).toBytes = .ok Sample.cutStart ∧
    ofBytes (Sample.cutStart ++ [7]) = .ok (start 1 0 1024 "é" 5, 139) ∧
    ¬ (start 1 0 1024 "é\x00x" 5).Intact := by
  have h := ofBytes_toBytes_append Sample.toBytes_cutStart [7]
  have hchanged : (start 1 0 1024 "é\x00x" 5).received ≠ start 1 0 1024 "é\x00x" 5 := by
    decide +kernel
  exact ⟨Sample.toBytes_cutStart, h.1, fun hintact => hchanged (h.2.mpr hintact)⟩

section Read

variable {f : Frame} {bs body : Bytes} {n : Nat}

theorem Image.received_eq (h : Image f body) : f.received = f := by
  cases h with
  | start action flags size sendId =>
      rw [received, Utf8.beforeNul_eq_self_iff.mpr (Utf8.nul_not_mem_cString _)]
  | cancel recvId code => rw [received, Reason.code_ofCode]
  | abort recvId code => rw [received, Reason.code_ofCode]
  | _ => rfl

theorem Image.check_iff (h : Image f body) :
    f.check = .ok () ↔ f.nameBytes.length ≤ nameWidth := by
  have hchunk : f.chunk.length ≤ maxChunk := by
    cases h with
    | data recvId token seq hchunk => exact hchunk
    | _ => exact Nat.zero_le _
  rw [check_eq_ok_iff, and_iff_left hchunk]

/-- Only a `start` frame has more than one image. -/
theorem Image.payload_eq (h : Image f body) (hk : f.kind ≠ .start) : f.payload = body := by
  cases h with
  | start => exact absurd rfl hk
  | cancel recvId code => rw [payload, Reason.code_ofCode]
  | abort recvId code => rw [payload, Reason.code_ofCode]
  | _ => rfl

theorem nameBytes_of_kind_ne (hk : f.kind ≠ .start) : f.nameBytes = [] := by
  cases f with
  | start => exact absurd rfl hk
  | _ => rfl

theorem exists_image (h : ofBytes bs = .ok (f, n)) : ∃ body tail, Image f body ∧
    bs = (f.kind.opcode :: body) ++ tail ∧ (f.kind.opcode :: body).length = n := by
  obtain ⟨rfl, body, tail, hi, hbs⟩ := ofBytes_eq_ok_iff.mp h
  refine ⟨body, tail, hi, hbs, ?_⟩
  rw [List.length_cons, hi.length, wireSize, Nat.add_comm]

theorem size_le_length (h : ofBytes bs = .ok (f, n)) : n ≤ bs.length := by
  obtain ⟨body, tail, -, rfl, rfl⟩ := exists_image h
  rw [List.length_append]
  exact Nat.le_add_right _ _

theorem toBytes_eq_take (h : ofBytes bs = .ok (f, n)) (hk : f.kind ≠ .start) :
    f.toBytes = .ok (bs.take n) := by
  obtain ⟨body, tail, hi, rfl, rfl⟩ := exists_image h
  have hname : f.nameBytes.length ≤ nameWidth := by
    rw [nameBytes_of_kind_ne hk]
    exact Nat.zero_le _
  rw [toBytes_eq_ok_iff, List.take_left, hi.payload_eq hk]
  exact ⟨hi.check_iff.mpr hname, rfl⟩

-- The bytes of a `start` frame that its values do not determine.

/-- The field of the type name, behind opcode, action, flags and size. -/
def nameField (bs : Bytes) : Bytes := (bs.drop 7).take nameWidth

def reservedField (bs : Bytes) : Bytes := (bs.drop 136).take 3

/-- The name is a text in UTF-8 that zeros follow up to the end of its field, and the
reserved bytes are zero. -/
structure CanonicalStart (bs : Bytes) : Prop where
  name : Utf8.IsUtf8 ((nameField bs).takeWhile (· != 0))
  filled : ∀ b ∈ (nameField bs).dropWhile (· != 0), b = 0
  reserved : reservedField bs = [0, 0, 0]

theorem nameField_append {front field back : Bytes} (hfront : front.length = 7)
    (hfield : field.length = nameWidth) : nameField (front ++ (field ++ back)) = field := by
  rw [nameField, List.drop_left' hfront, List.take_left' hfield]

theorem reservedField_append {front reserved back : Bytes} (hfront : front.length = 136)
    (hreserved : reserved.length = 3) :
    reservedField (front ++ (reserved ++ back)) = reserved := by
  rw [reservedField, List.drop_left' hfront, List.take_left' hreserved]

/-- A `start` frame with the bytes it was read from. -/
theorem exists_start (h : ofBytes bs = .ok (f, n)) (hk : f.kind = .start) :
    ∃ action flags size sendId,
      f = .start action flags size (Utf8.cString (nameField bs)) sendId ∧
      (nameField bs).length = nameWidth ∧ (reservedField bs).length = 3 ∧
      bs.take n = 0 :: ([action, flags] ++ Word.bytes 4 size.toNat ++ nameField bs ++
        [sendId] ++ reservedField bs) := by
  obtain ⟨body, tail, hi, hbs, hn⟩ := exists_image h
  cases hi with
  | @start action flags size field sendId reserved hfield hreserved =>
      have hword := Word.length_bytes 4 size.toNat
      have hname : nameField bs = field := by
        have hsplit : bs = (0 :: ([action, flags] ++ Word.bytes 4 size.toNat)) ++
            (field ++ ([sendId] ++ reserved ++ tail)) := by
          rw [hbs]
          simp [kind, Kind.opcode]
        rw [hsplit]
        exact nameField_append (by simp [hword]) hfield
      have hrest : reservedField bs = reserved := by
        have hsplit : bs = (0 :: ([action, flags] ++ Word.bytes 4 size.toNat ++ field ++
            [sendId])) ++ (reserved ++ tail) := by
          rw [hbs]
          simp [kind, Kind.opcode]
        rw [hsplit]
        exact reservedField_append (by simp [hword, hfield, nameWidth]) hreserved
      have htake := hbs ▸ List.take_left' hn
      rw [hname, hrest]
      exact ⟨action, flags, size, sendId, rfl, hfield, hreserved, htake⟩
  | _ => cases hk

/-- A field comes back exactly if it holds a text in UTF-8 with zeros behind it. -/
theorem padded_cString_iff {width : Nat} {field : Bytes} (hfield : field.length = width) :
    padded width (Utf8.cString field) = field ↔
      Utf8.IsUtf8 (field.takeWhile (· != 0)) ∧ ∀ b ∈ field.dropWhile (· != 0), b = 0 := by
  have hsplit := List.takeWhile_append_dropWhile (p := (· != 0)) (l := field)
  constructor
  · intro h
    have htext := calc
      field.takeWhile (· != 0)
      _ = (padded width (Utf8.cString field)).takeWhile (· != 0) := by rw [h]
      _ = Utf8.encode (Utf8.beforeNul (Utf8.cString field)) := Utf8.takeWhile_encode_append _ _
      _ = Utf8.encode (Utf8.cString field) := by
          rw [Utf8.beforeNul_eq_self_iff.mpr (Utf8.nul_not_mem_cString field)]
    have hzeros : field.takeWhile (· != 0) ++ field.dropWhile (· != 0) =
        field.takeWhile (· != 0) ++
          List.replicate (width - (Utf8.encode (Utf8.cString field)).length) 0 := by
      rw [hsplit, htext]
      exact h.symm
    have hzeros := List.append_cancel_left hzeros
    exact ⟨⟨_, htext.symm⟩, fun b hb => List.eq_of_mem_replicate (hzeros ▸ hb)⟩
  · intro h
    obtain ⟨hname, hzeros⟩ := h
    have htext := Utf8.encode_cString_iff.mpr hname
    have hlength := congrArg List.length hsplit
    rw [List.length_append, hfield] at hlength
    have hcount : (field.dropWhile (· != 0)).length =
        width - (field.takeWhile (· != 0)).length := by omega
    rw [padded, htext, ← hcount, ← List.eq_replicate_of_mem hzeros, hsplit]

theorem payload_start_iff {action flags sendId : UInt8} {size : UInt32} {name : String}
    {field reserved : Bytes} (hfield : field.length = nameWidth) (hreserved : reserved.length = 3)
    (hname : (Utf8.encode name).length ≤ nameWidth) :
    [action, flags] ++ Word.bytes 4 size.toNat ++ field ++ [sendId] ++ reserved =
        (start action flags size name sendId).payload ↔
      padded nameWidth name = field ∧ reserved = [0, 0, 0] := by
  have hpadded := length_padded hname
  constructor
  · intro h
    rw [payload, List.append_assoc, List.append_assoc, List.append_assoc (_ ++ _)] at h
    obtain ⟨hfields, hrest⟩ := List.append_inj (List.append_cancel_left h)
      (by rw [hfield, hpadded])
    exact ⟨hfields.symm, (List.cons.inj hrest).2⟩
  · intro h
    obtain ⟨rfl, rfl⟩ := h
    simp [payload]

theorem toBytes_start_iff (h : ofBytes bs = .ok (f, n)) (hk : f.kind = .start) :
    f.toBytes = .ok (bs.take n) ↔ CanonicalStart bs := by
  obtain ⟨action, flags, size, sendId, rfl, hfield, hreserved, htake⟩ := exists_start h hk
  obtain ⟨body, tail, hi, -, -⟩ := exists_image h
  rw [toBytes_eq_ok_iff, htake, hi.check_iff]
  constructor
  · intro hb
    obtain ⟨hname, hbytes⟩ := hb
    obtain ⟨hpadded, hzero⟩ :=
      (payload_start_iff hfield hreserved hname).mp (List.cons.inj hbytes).2
    obtain ⟨hutf8, hfilled⟩ := (padded_cString_iff hfield).mp hpadded
    exact ⟨hutf8, hfilled, hzero⟩
  · intro hb
    have hpadded := (padded_cString_iff hfield).mpr ⟨hb.name, hb.filled⟩
    have hname := hfield ▸ Utf8.length_encode_cString_le hb.name
    exact ⟨hname, congrArg _
      ((payload_start_iff hfield hreserved hname).mpr ⟨hpadded, hb.reserved⟩)⟩

/-- What was read is written again byte for byte: a frame other than `start` always, which
makes its bytes the only ones for it, and a `start` frame exactly if it was canonical. -/
theorem toBytes_ofBytes (h : ofBytes bs = .ok (f, n)) :
    n ≤ bs.length ∧
    (f.kind ≠ .start → f.toBytes = .ok (bs.take n)) ∧
    (f.kind = .start → (f.toBytes = .ok (bs.take n) ↔ CanonicalStart bs)) ∧
    ∀ other m, ofBytes other = .ok (f, m) → f.kind ≠ .start → other.take m = bs.take n := by
  refine ⟨size_le_length h, toBytes_eq_take h, toBytes_start_iff h, ?_⟩
  intro other m hother hk
  have hsame := (toBytes_eq_take hother hk).symm.trans (toBytes_eq_take h hk)
  exact Except.ok.inj hsame

theorem toBytes_ofBytes_cancel_and_start :
    ofBytes [5, 9, 77, 0] = .ok (cancel 9 (.unknown 77), 3) ∧
    (cancel 9 (.unknown 77)).toBytes = .ok [5, 9, 77] ∧
    ofBytes Sample.cutStart = .ok (start 1 0 1024 "é" 5, 139) ∧
    (start 1 0 1024 "é" 5).toBytes ≠ .ok Sample.cutStart := by
  have hcancel : ofBytes [5, 9, 77, 0] = .ok (cancel 9 (.unknown 77), 3) := by decide +kernel
  have hstart : ofBytes Sample.cutStart = .ok (start 1 0 1024 "é" 5, 139) := by decide +kernel
  refine ⟨hcancel, (toBytes_ofBytes hcancel).2.1 (by decide), hstart, fun h => ?_⟩
  have hcanonical := ((toBytes_ofBytes hstart).2.2.1 rfl).mp h
  exact absurd (hcanonical.filled 0x78 (by decide +kernel)) (by decide)

/-- A frame that was read can be written unless its name outgrew the field, which only
happens to a name that is no UTF-8; and what is written is read as the same frame. -/
theorem relayed_unless_name_outgrows (h : ofBytes bs = .ok (f, n)) :
    (f.nameBytes.length ≤ nameWidth →
      ∃ out, f.toBytes = .ok out ∧ out.length = n ∧ ofBytes out = .ok (f, n)) ∧
    (nameWidth < f.nameBytes.length →
      f.toBytes = .error (.nameTooLong f.nameBytes.length nameWidth) ∧ f.kind = .start ∧
      ¬ Utf8.IsUtf8 ((nameField bs).takeWhile (· != 0))) := by
  obtain ⟨body, tail, hi, -, -⟩ := exists_image h
  obtain rfl := ofBytes_size h
  constructor
  · intro hname
    have hout : f.toBytes = .ok (f.kind.opcode :: f.payload) :=
      toBytes_eq_ok_iff.mpr ⟨hi.check_iff.mpr hname, rfl⟩
    have hback := ofBytes_of_toBytes hout []
    rw [List.append_nil, hi.received_eq] at hback
    exact ⟨_, hout, length_toBytes hout, hback⟩
  · intro hname
    obtain ⟨hk, hcheck⟩ := check_of_long_name hname
    have hfails : f.toBytes = .error (.nameTooLong f.nameBytes.length nameWidth) := by
      rw [toBytes, hcheck]
      rfl
    refine ⟨hfails, hk, fun hutf8 => ?_⟩
    obtain ⟨action, flags, size, sendId, rfl, hfield, -, -⟩ := exists_start h hk
    have hfits := Utf8.length_encode_cString_le hutf8
    rw [hfield] at hfits
    exact Nat.not_lt_of_le hfits hname

end Read

namespace Sample

/-- A `start` frame that names its type with 43 bytes that are no text. -/
def illFormedStart : Bytes := List.replicate 7 0 ++ List.replicate 43 0xFF ++ List.replicate 89 0

/-- The frame that is read from it. The name takes three bytes for each of the 43. -/
def replacedStart : Frame := start 0 0 0 (String.ofList (List.replicate 43 '\uFFFD')) 0

theorem ofBytes_illFormedStart : ofBytes illFormedStart = .ok (replacedStart, 139) := by
  decide +kernel

end Sample

theorem relayed_unless_name_outgrows_samples :
    ofBytes Sample.illFormedStart = .ok (Sample.replacedStart, 139) ∧
    Sample.replacedStart.toBytes = .error (.nameTooLong 129 128) ∧
    ofBytes Sample.cutStart = .ok (start 1 0 1024 "é" 5, 139) ∧
    ∃ out, (start 1 0 1024 "é" 5).toBytes = .ok out ∧ out.length = 139 ∧
      ofBytes out = .ok (start 1 0 1024 "é" 5, 139) := by
  have hcut : ofBytes Sample.cutStart = .ok (start 1 0 1024 "é" 5, 139) := by decide +kernel
  have hlength : Sample.replacedStart.nameBytes.length = 129 := by decide +kernel
  have hlong := (relayed_unless_name_outgrows Sample.ofBytes_illFormedStart).2
    (by rw [hlength]; decide)
  rw [hlength] at hlong
  have hshort := (relayed_unless_name_outgrows hcut).1 (by decide +kernel)
  exact ⟨Sample.ofBytes_illFormedStart, hlong.1, hcut, hshort⟩

/-- Not every frame that is read can be written. -/
theorem replacedStart_not_relayed :
    ofBytes Sample.illFormedStart = .ok (Sample.replacedStart, 139) ∧
    ¬ ∃ out, Sample.replacedStart.toBytes = .ok out ∧ out.length = 139 ∧
      ofBytes out = .ok (Sample.replacedStart, 139) := by
  refine ⟨Sample.ofBytes_illFormedStart, fun h => ?_⟩
  obtain ⟨out, hout, -⟩ := h
  have hfails : Sample.replacedStart.toBytes = .error (.nameTooLong 129 128) := by decide +kernel
  rw [hfails] at hout
  cases hout

end Frame

end WireCapture
