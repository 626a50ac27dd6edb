import Quorvec.Support.ByteCodec

/-!
# Logs of length-prefixed, checksummed frames

A frame is a `u32` length, a `u32` checksum of the body, and the body; the
length counts the checksum and the body.  `scan` walks a byte string frame by
frame and stops at the first position where no intact frame stands: too few
bytes are left, the checksum disagrees, or the body does not decode.

Whatever the checksum is, the scan is the parser of the longest prefix that is
a concatenation of frames of decodable bodies.  A torn last frame is invisible
to it, because no frame is a proper prefix of another.
-/

namespace Framing

open ByteCodec

variable {ρ : Type}

/-- The frame of a body.  The length field holds the low 32 bits of the
framed length. -/
def frame (checksum : Bytes → UInt32) (body : Bytes) : Bytes :=
  toLeBytes 4 (UInt32.ofNat (4 + body.length)).toNat ++
    (toLeBytes 4 (checksum body).toNat ++ body)

@[simp] theorem length_frame (checksum : Bytes → UInt32) (body : Bytes) :
    (frame checksum body).length = 8 + body.length := by
  simp [frame]
  omega

/-- Read intact frames from `pos` on.  Returns the decoded bodies and the
position of the first byte that is not part of an intact frame. -/
def scan (checksum : Bytes → UInt32)
    (decode : Bytes → Except OutOfRange (Option ρ)) (buf : Bytes) (pos : ℕ) :
    Except OutOfRange (List ρ × ℕ) :=
  if _h : pos + 4 ≤ buf.length then do
    let frameLen ← readLe buf pos 4
    let frameStart := pos + 4
    let frameEnd := frameStart + frameLen
    -- a torn tail: the frame does not fit in what is left of the buffer
    if frameLen < 4 ∨ frameEnd > buf.length then
      return ([], pos)
    else
      let storedCrc ← readLe buf frameStart 4
      let body ← slice buf (frameStart + 4) frameEnd
      if (checksum body).toNat ≠ storedCrc then
        return ([], pos)
      else
        match ← decode body with
        | none => return ([], pos)
        | some r =>
            let (rs, goodEnd) ← scan checksum decode buf frameEnd
            return (r :: rs, goodEnd)
  else
    return ([], pos)
termination_by buf.length - pos

/-- `decode` is total and inverts `enc` on `dom`. -/
structure BodyCodec (decode : Bytes → Except OutOfRange (Option ρ))
    (enc : ρ → Bytes) (dom : ρ → Prop) : Prop where
  total : ∀ b, ∃ o, decode b = .ok o
  accepts : ∀ b r, decode b = .ok (some r) ↔ dom r ∧ enc r = b

/-- The records whose frame carries its true length. -/
def Fits (enc : ρ → Bytes) (dom : ρ → Prop) (r : ρ) : Prop :=
  dom r ∧ 4 + (enc r).length < 2 ^ 32

/-- The concatenated frames of a list of records. -/
def frames (checksum : Bytes → UInt32) (enc : ρ → Bytes) (rs : List ρ) :
    Bytes :=
  rs.flatMap fun r => frame checksum (enc r)

/-- No frame of a fitting record starts the byte string `t`. -/
def NoFrame (checksum : Bytes → UInt32) (enc : ρ → Bytes) (dom : ρ → Prop)
    (t : Bytes) : Prop :=
  ∀ r, Fits enc dom r → ¬ frame checksum (enc r) <+: t

section Frames

variable {checksum : Bytes → UInt32} {enc : ρ → Bytes} {dom : ρ → Prop}

@[simp] theorem frames_nil : frames checksum enc [] = [] := rfl

@[simp] theorem frames_cons (r : ρ) (rs : List ρ) :
    frames checksum enc (r :: rs) =
      frame checksum (enc r) ++ frames checksum enc rs := rfl

@[simp] theorem frames_append (rs rs' : List ρ) :
    frames checksum enc (rs ++ rs') =
      frames checksum enc rs ++ frames checksum enc rs' := by
  simp [frames]

theorem noFrame_nil : NoFrame checksum enc dom [] := by
  intro r _ hpre
  have hlen := hpre.length_le
  simp at hlen

theorem lengthField_of_fits {r : ρ} (hr : Fits enc dom r) :
    (UInt32.ofNat (4 + (enc r).length)).toNat = 4 + (enc r).length := by
  rw [UInt32.toNat_ofNat']
  exact Nat.mod_eq_of_lt hr.2

/-- No frame is a proper prefix of another frame. -/
theorem length_eq_of_frame_isPrefix {a b : ρ} (ha : Fits enc dom a)
    (hb : Fits enc dom b)
    (h : frame checksum (enc a) <+: frame checksum (enc b)) :
    (frame checksum (enc a)).length = (frame checksum (enc b)).length := by
  have htake := congrArg (List.take 4)
    (List.prefix_iff_eq_take.mp h)
  have hlow : 4 ≤ (frame checksum (enc a)).length := by
    rw [length_frame]
    omega
  rw [List.take_take, min_eq_left hlow] at htake
  have hfields :
      toLeBytes 4 (UInt32.ofNat (4 + (enc a).length)).toNat =
        toLeBytes 4 (UInt32.ofNat (4 + (enc b).length)).toNat := by
    simpa [frame] using htake
  have hbound : ∀ {r : ρ}, Fits enc dom r →
      fromLeBytes (toLeBytes 4 (UInt32.ofNat (4 + (enc r).length)).toNat) =
        4 + (enc r).length := by
    intro r hr
    have hlt : 4 + (enc r).length < 256 ^ 4 := hr.2
    rw [lengthField_of_fits hr, fromLeBytes_toLeBytes_of_lt hlt]
  have hlen := hbound ha
  rw [hfields, hbound hb] at hlen
  simp
  omega

theorem noFrame_of_cut {r : ρ} (hr : Fits enc dom r) {t : Bytes}
    (ht : t <+: frame checksum (enc r))
    (hcut : t.length < (frame checksum (enc r)).length) :
    NoFrame checksum enc dom t := by
  intro a ha hpre
  have hlen := length_eq_of_frame_isPrefix ha hr (hpre.trans ht)
  have hle := hpre.length_le
  omega

/-- Cutting a log after `k` bytes keeps the frames that lie wholly before the
cut, followed by bytes that start with no frame. -/
theorem exists_take_frames {rs : List ρ} (hrs : ∀ r ∈ rs, Fits enc dom r)
    {k : ℕ} (hk : k ≤ (frames checksum enc rs).length) :
    ∃ i ≤ rs.length, ∃ t,
      (frames checksum enc rs).take k =
        frames checksum enc (rs.take i) ++ t ∧
      NoFrame checksum enc dom t ∧
      (frames checksum enc (rs.take i)).length ≤ k ∧
      (i < rs.length → k < (frames checksum enc (rs.take (i + 1))).length) := by
  induction rs generalizing k with
  | nil => exact ⟨0, le_rfl, [], by simp, noFrame_nil, by simp, by simp⟩
  | cons r rs ih =>
      rw [frames_cons, List.length_append] at hk
      by_cases hfit : (frame checksum (enc r)).length ≤ k
      · obtain ⟨i, hi, t, htake, hno, hle, hlt⟩ :=
          ih (fun x hx => hrs x (List.mem_cons_of_mem r hx))
            (k := k - (frame checksum (enc r)).length) (by omega)
        refine ⟨i + 1, Nat.succ_le_succ hi, t, ?_, hno, ?_, ?_⟩
        · rw [frames_cons, List.take_append, List.take_of_length_le hfit,
            htake, List.take_succ_cons, frames_cons, List.append_assoc]
        · rw [List.take_succ_cons, frames_cons, List.length_append]
          omega
        · intro hlast
          have hstep := hlt (Nat.lt_of_succ_lt_succ hlast)
          rw [List.take_succ_cons, frames_cons, List.length_append]
          omega
      · refine ⟨0, Nat.zero_le _, (frame checksum (enc r)).take k, ?_,
          noFrame_of_cut (hrs r List.mem_cons_self) (List.take_prefix _ _) ?_,
          by simp, ?_⟩
        · rw [frames_cons, List.take_append_of_le_length (by omega)]
          simp
        · rw [List.length_take]
          omega
        · intro _
          simp only [Nat.zero_add, List.take_succ_cons, List.take_zero,
            frames_cons, frames_nil, List.append_nil]
          omega

end Frames

section Scan

variable {checksum : Bytes → UInt32}
variable {decode : Bytes → Except OutOfRange (Option ρ)}
variable {enc : ρ → Bytes} {dom : ρ → Prop}

/-- At an intact frame the scan takes it and goes on behind it. -/
theorem scan_of_frame (codec : BodyCodec decode enc dom) {buf : Bytes}
    {pos : ℕ} {r : ρ} (hpos : pos ≤ buf.length) (hr : Fits enc dom r)
    (hframe : frame checksum (enc r) <+: buf.drop pos) :
    scan checksum decode buf pos = (do
      let (rs, goodEnd) ← scan checksum decode buf
        (pos + (frame checksum (enc r)).length)
      return (r :: rs, goodEnd)) := by
  have hend := Inverts.position_le hpos hframe
  rw [length_frame] at hend
  rw [frame, Inverts.append_prefix_drop_iff,
    Inverts.append_prefix_drop_iff] at hframe
  obtain ⟨hlenField, hcrcField, hbody⟩ := hframe
  simp only [length_toLeBytes] at hcrcField hbody
  have hlen : readLe buf pos 4 = .ok (4 + (enc r).length) := by
    rw [readLe_of_isPrefix (length_toLeBytes _ _) hpos hlenField,
      lengthField_of_fits hr, fromLeBytes_toLeBytes_of_lt hr.2]
  have hcrc : readLe buf (pos + 4) 4 = .ok (checksum (enc r)).toNat := by
    rw [readLe_of_isPrefix (length_toLeBytes _ _) (by omega) hcrcField,
      fromLeBytes_toLeBytes_of_lt (checksum (enc r)).toNat_lt]
  have hnext : pos + 4 + (4 + (enc r).length) =
      pos + (frame checksum (enc r)).length := by
    rw [length_frame]
    omega
  have hslice : slice buf (pos + 4 + 4)
      (pos + (frame checksum (enc r)).length) = .ok (enc r) := by
    rw [← hnext, ← Nat.add_assoc (pos + 4) 4]
    exact slice_of_isPrefix (by omega) hbody
  have hdecode : decode (enc r) = .ok (some r) :=
    (codec.accepts _ _).mpr ⟨hr.1, rfl⟩
  rw [scan, dif_pos (by omega)]
  simp only [hlen, ok_bind]
  rw [if_neg (by omega)]
  simp only [hcrc, hnext, hslice, hdecode, ok_bind, ne_eq,
    not_true_eq_false, if_false]

/-- Where no intact frame stands the scan stops. -/
theorem scan_of_noFrame (codec : BodyCodec decode enc dom) {buf : Bytes}
    {pos : ℕ} (hno : NoFrame checksum enc dom (buf.drop pos)) :
    scan checksum decode buf pos = .ok ([], pos) := by
  rw [scan]
  by_cases h4 : pos + 4 ≤ buf.length
  swap
  · rw [dif_neg h4, pure_eq_ok]
  rw [dif_pos h4, readLe_of_le h4, ok_bind]
  set lenBytes := (buf.drop pos).take 4 with hlenBytes
  have hlenLength : lenBytes.length = 4 := by
    rw [hlenBytes, List.length_take, List.length_drop]
    omega
  set frameLen := fromLeBytes lenBytes with hframeLen
  have hframeLt : frameLen < 2 ^ 32 := by
    have hlt := fromLeBytes_lt lenBytes
    rwa [hlenLength] at hlt
  by_cases htorn : frameLen < 4 ∨ pos + 4 + frameLen > buf.length
  · rw [if_pos htorn, pure_eq_ok]
  rw [if_neg htorn]
  push Not at htorn
  rw [readLe_of_le (by omega), ok_bind]
  obtain ⟨n, hn⟩ : ∃ n, frameLen = 4 + n :=
    ⟨frameLen - 4, by omega⟩
  have hstop : pos + 4 + frameLen = pos + 4 + 4 + n := by omega
  rw [hstop, slice_of_le (by omega), ok_bind]
  set crcBytes := (buf.drop (pos + 4)).take 4 with hcrcBytes
  have hcrcLength : crcBytes.length = 4 := by
    rw [hcrcBytes, List.length_take, List.length_drop]
    omega
  set body := (buf.drop (pos + 4 + 4)).take n with hbody
  have hbodyLength : body.length = n := by
    rw [hbody, List.length_take, List.length_drop]
    omega
  by_cases hcrc : (checksum body).toNat ≠ fromLeBytes crcBytes
  · rw [if_pos hcrc, pure_eq_ok]
  rw [if_neg hcrc]
  push Not at hcrc
  obtain ⟨o, ho⟩ := codec.total body
  rw [ho, ok_bind]
  cases o with
  | none => rfl
  | some r =>
      exfalso
      obtain ⟨hdom, henc⟩ := (codec.accepts _ _).mp ho
      have hfield : (UInt32.ofNat (4 + body.length)).toNat = frameLen := by
        rw [UInt32.toNat_ofNat', hbodyLength, ← hn,
          Nat.mod_eq_of_lt hframeLt]
      refine hno r ⟨hdom, by rw [henc, hbodyLength]; omega⟩ ?_
      rw [henc, frame, hfield, hcrc, hframeLen,
        toLeBytes_fromLeBytes_of_length hlenLength,
        toLeBytes_fromLeBytes_of_length hcrcLength,
        Inverts.append_prefix_drop_iff, Inverts.append_prefix_drop_iff,
        hlenLength, hcrcLength]
      exact ⟨List.take_prefix _ _, List.take_prefix _ _,
        List.take_prefix _ _⟩

/-- The scan returns a list of records exactly when their frames stand at the
position and no further frame follows. -/
theorem scan_of_frames (codec : BodyCodec decode enc dom) {buf : Bytes}
    {rs : List ρ} (hrs : ∀ r ∈ rs, Fits enc dom r) {pos : ℕ}
    (hpos : pos ≤ buf.length)
    (hframes : frames checksum enc rs <+: buf.drop pos)
    (hno : NoFrame checksum enc dom
      (buf.drop (pos + (frames checksum enc rs).length))) :
    scan checksum decode buf pos =
      .ok (rs, pos + (frames checksum enc rs).length) := by
  induction rs generalizing pos with
  | nil => exact scan_of_noFrame codec (by simpa using hno)
  | cons r rs ih =>
      rw [frames_cons, Inverts.append_prefix_drop_iff] at hframes
      rw [frames_cons, List.length_append, ← Nat.add_assoc] at hno ⊢
      rw [scan_of_frame codec hpos (hrs r List.mem_cons_self) hframes.1,
        ih (fun x hx => hrs x (List.mem_cons_of_mem r hx))
          (Inverts.position_le hpos hframes.1) hframes.2 hno]
      rfl

/-- The scan of a log that is followed by no further frame returns the log. -/
theorem scan_frames_append (codec : BodyCodec decode enc dom) {rs : List ρ}
    (hrs : ∀ r ∈ rs, Fits enc dom r) {t : Bytes}
    (ht : NoFrame checksum enc dom t) :
    scan checksum decode (frames checksum enc rs ++ t) 0 =
      .ok (rs, (frames checksum enc rs).length) := by
  have h : scan checksum decode (frames checksum enc rs ++ t) 0 =
      .ok (rs, 0 + (frames checksum enc rs).length) :=
    scan_of_frames codec hrs (Nat.zero_le _) (by simp) (by simpa using ht)
  rwa [Nat.zero_add] at h

theorem BodyCodec.injective (codec : BodyCodec decode enc dom) {a b : ρ}
    (ha : dom a) (hb : dom b) (h : enc a = enc b) : a = b := by
  have hsome : Except.ok (some a) =
      (Except.ok (some b) : Except OutOfRange _) := by
    rw [← (codec.accepts (enc b) a).mpr ⟨ha, h⟩,
      (codec.accepts (enc b) b).mpr ⟨hb, rfl⟩]
  simpa using hsome

/-- A log that is followed by no further frame extends every log of fitting
records with which the bytes start. -/
theorem isPrefix_of_frames_isPrefix (codec : BodyCodec decode enc dom)
    {rs rs' : List ρ} (hrs : ∀ r ∈ rs, Fits enc dom r)
    (hrs' : ∀ r ∈ rs', Fits enc dom r) {t : Bytes}
    (ht : NoFrame checksum enc dom t)
    (h : frames checksum enc rs' <+: frames checksum enc rs ++ t) :
    rs' <+: rs := by
  induction rs' generalizing rs with
  | nil => exact List.nil_prefix
  | cons r' rs' ih =>
      have hr' := hrs' r' List.mem_cons_self
      have hhead : frame checksum (enc r') <+: frames checksum enc rs ++ t :=
        (List.prefix_append _ _).trans h
      cases rs with
      | nil => exact absurd hhead (ht r' hr')
      | cons r rs =>
          have hr := hrs r List.mem_cons_self
          have hframe : frame checksum (enc r') = frame checksum (enc r) := by
            have hown : frame checksum (enc r) <+:
                frames checksum enc (r :: rs) ++ t := by
              rw [frames_cons, List.append_assoc]
              exact List.prefix_append _ _
            rcases List.prefix_or_prefix_of_prefix hhead hown with hle | hle
            · exact hle.eq_of_length (length_eq_of_frame_isPrefix hr' hr hle)
            · exact (hle.eq_of_length
                (length_eq_of_frame_isPrefix hr hr' hle)).symm
          have hbody : enc r' = enc r := by
            have hcovered := (List.append_inj hframe (by simp)).2
            exact (List.append_inj hcovered (by simp)).2
          have hsame := codec.injective hr'.1 hr.1 hbody
          subst hsame
          rw [frames_cons, frames_cons, List.append_assoc,
            List.prefix_append_right_inj] at h
          rw [List.prefix_cons_inj]
          exact ih (fun x hx => hrs x (List.mem_cons_of_mem _ hx))
            (fun x hx => hrs' x (List.mem_cons_of_mem _ hx)) h

/-- Every byte string is a log followed by bytes that start with no frame. -/
theorem exists_frames_append (checksum : Bytes → UInt32) (enc : ρ → Bytes)
    (dom : ρ → Prop) (buf : Bytes) :
    ∃ rs t, buf = frames checksum enc rs ++ t ∧
      (∀ r ∈ rs, Fits enc dom r) ∧ NoFrame checksum enc dom t := by
  induction hn : buf.length using Nat.strong_induction_on generalizing buf with
  | _ n ih =>
      by_cases hno : NoFrame checksum enc dom buf
      · exact ⟨[], buf, by simp, by simp, hno⟩
      · simp only [NoFrame, not_forall, not_not] at hno
        obtain ⟨r, hr, rest, rfl⟩ := hno
        simp only [List.length_append, length_frame] at hn
        obtain ⟨rs, t, rfl, hrs, ht⟩ := ih rest.length (by omega) rest rfl
        refine ⟨r :: rs, t, by simp, ?_, ht⟩
        intro x hx
        rcases List.mem_cons.mp hx with rfl | hx
        · exact hr
        · exact hrs x hx

end Scan

end Framing
