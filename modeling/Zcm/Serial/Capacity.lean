import Zcm.Serial.Link

namespace Zcm.Serial
open Zcm.Lib

/-- The length of a frame whose channel and data are as long as they may be and all escape characters. -/
def longestFrame (mtu : Nat) : Nat := frameBytes + 2 * (channelMaxlen + mtu)

theorem escape_length_le (bs : List Byte) : (escape bs).length ≤ 2 * bs.length := by
  induction bs with
  | nil => simp
  | cons b bs ih =>
      rw [escape_cons, List.length_append, List.length_cons]
      split <;> simp <;> omega

theorem escape_replicate (n : Nat) : (escape (List.replicate n escapeChar)).length = 2 * n := by
  induction n with
  | zero => rfl
  | succ n ih =>
      rw [List.replicate_succ, escape_cons, if_pos rfl, List.length_append, ih]
      simp
      omega

theorem frame_length_le {m : Msg} {mtu : Nat} (chan : m.channel.chars.length ≤ channelMaxlen)
    (len : m.buf.length ≤ mtu) : (frame m).length ≤ longestFrame mtu := by
  have escaped := escape_length_le (m.channel.chars ++ m.buf)
  rw [frame_length, longestFrame]
  rw [List.length_append] at escaped
  omega

def fullMsg (mtu : Nat) : Msg :=
  ⟨⟨List.replicate channelMaxlen escapeChar, by decide⟩, List.replicate mtu escapeChar⟩

theorem fullMsg_frame_length (mtu : Nat) : (frame (fullMsg mtu)).length = longestFrame mtu := by
  rw [frame_length, longestFrame, fullMsg, escape_append, List.length_append, escape_replicate, escape_replicate]
  omega

theorem unescape_ne_short {after n : Nat} {xs : List Byte} (enough : 2 * n + after ≤ xs.length) :
    unescape after n xs ≠ .short := by
  induction n generalizing xs with
  | zero =>
      rw [unescape, if_neg (by omega)]
      exact Unescaped.noConfusion
  | succ n ih =>
      rcases xs with _ | ⟨c, _ | ⟨d, xs⟩⟩
      · simp at enough
      · simp at enough
        omega
      · simp only [List.length_cons] at enough
        have keeps : ∀ u : Unescaped, u ≠ .short → u.cons c ≠ .short := by
          intro u notShort
          cases u with
          | short => exact absurd rfl notShort
          | bad => exact Unescaped.noConfusion
          | ok plain rest => exact Unescaped.noConfusion
        by_cases plain : c = escapeChar
        · subst plain
          by_cases escaped : d = escapeChar
          · rw [unescape, if_neg (by simp), if_neg (by omega), if_pos escaped]
            exact keeps _ (ih (by omega))
          · rw [unescape, if_neg (by simp), if_neg (by omega), if_neg escaped]
            exact Unescaped.noConfusion
        · rw [unescape_plain plain]
          exact keeps _ (ih (by simp only [List.length_cons]; omega))

theorem verdict_ne_short {mtu : Nat} {xs : List Byte} (enough : longestFrame mtu ≤ xs.length) :
    verdict mtu xs ≠ .short := by
  simp only [longestFrame, frameBytes, channelMaxlen] at enough
  obtain ⟨b0, b1, b2, b3, b4, b5, b6, body, rfl⟩ := exists_header (show 7 ≤ xs.length by omega)
  simp only [List.length_cons] at enough
  rw [verdict, verdictOf]
  split
  next ok =>
    obtain ⟨-, -, chan, len⟩ := ok
    simp only [channelMaxlen] at chan
    have notShort : unescape 2 (b2.toNat + ofBe [b3, b4, b5, b6]) body ≠ .short := unescape_ne_short (by omega)
    generalize unescape 2 (b2.toNat + ofBe [b3, b4, b5, b6]) body = u at notShort
    cases u with
    | short => exact absurd rfl notShort
    | bad => exact Verdict.noConfusion
    | ok plain rest =>
        simp only
        split <;> exact Verdict.noConfusion
  · exact Verdict.noConfusion

theorem not_overruns_of_mtu {mtu : Nat} (small : mtu < intLimit) (xs : List Byte) : ¬ Overruns mtu xs := by
  intro overrun
  match xs, overrun with
  | _ :: _ :: _ :: _ :: _ :: _ :: _ :: _, ⟨⟨_, _, _, len⟩, large, _⟩ => omega

theorem clean_of_mtu {mtu : Nat} (small : mtu < intLimit) (xs : List Byte) : Clean mtu xs :=
  fun ys _ => not_overruns_of_mtu small ys

section Kept

theorem pushEscaped_capacity (after : Nat) (cs : List Byte) (s : Sending) :
    match pushEscaped after cs s with
    | .ok s' => s'.cb.capacity = s.cb.capacity
    | .error cb => cb.capacity = s.cb.capacity := by
  induction cs generalizing s with
  | nil => rfl
  | cons c cs ih =>
      rw [pushEscaped]
      by_cases escaped : c = escapeChar
      · by_cases enough : cbRoom (s.push c).cb > cs.length + 1 + after + 1
        · simp only [if_pos escaped, if_pos enough]
          exact ih { (s.push c).push c with checksum := fletcherUpdate c ((s.push c).push c).checksum }
        · simp only [if_pos escaped, if_neg enough]
          rfl
      · simp only [if_neg escaped]
        exact ih { s.push c with checksum := fletcherUpdate c (s.push c).checksum }

theorem serialSendmsg_capacity (zt : GenericSerial) (m : Msg) :
    (serialSendmsg zt m).2.sendBuffer.capacity = zt.sendBuffer.capacity := by
  unfold serialSendmsg
  simp only
  split
  · rfl
  split
  · rfl
  split
  · rfl
  have header : (pushHeader zt.sendBuffer m.channel.chars.length m.buf.length).cb.capacity =
      zt.sendBuffer.capacity := rfl
  have first := pushEscaped_capacity m.buf.length m.channel.chars
    (pushHeader zt.sendBuffer m.channel.chars.length m.buf.length)
  rw [header] at first
  generalize pushEscaped m.buf.length m.channel.chars
    (pushHeader zt.sendBuffer m.channel.chars.length m.buf.length) = channel at first
  cases channel with
  | error cb => exact first
  | ok s =>
      have second := pushEscaped_capacity 0 m.buf s
      simp only at first ⊢
      rw [first] at second
      generalize pushEscaped 0 m.buf s = data at second
      cases data with
      | error cb => exact second
      | ok s' => exact second

theorem recvAttempt_done {zt : GenericSerial} {m : Msg} {size : Nat} (h : recvAttempt zt = .done (m, size)) :
    size ≤ cbSize zt.recvBuffer := by
  by_cases long : frameBytes ≤ cbSize zt.recvBuffer
  · by_cases overrun : Overruns zt.mtu (contents zt.recvBuffer)
    · rw [(recvAttempt_spec long).1 overrun] at h
      cases h
    · rw [(recvAttempt_spec long).2 overrun] at h
      cases v : verdict zt.mtu (contents zt.recvBuffer) with
      | short =>
          rw [v] at h
          cases h
      | bad =>
          rw [v] at h
          cases h
      | frame m' size' =>
          rw [v] at h
          cases h
          rw [← contents_length]
          exact (verdict_size v).2
  · rw [recvAttempt, if_pos (by omega)] at h
    cases h

theorem recvAttempt_fail {zt : GenericSerial} (h : recvAttempt zt = .fail) : frameBytes ≤ cbSize zt.recvBuffer := by
  by_contra short
  rw [recvAttempt, if_pos (by omega)] at h
  cases h

theorem resync_capacity {fuel : Nat} {cb cb' : CircBuffer} (h : resync fuel cb = some cb') :
    cb'.capacity = cb.capacity := by
  induction fuel generalizing cb with
  | zero => cases h
  | succ fuel ih =>
      rw [resync] at h
      split at h
      · have rest := ih h
        exact rest
      · cases h
        rfl

structure Shrinks (zt zt' : GenericSerial) : Prop where
  bounds : InBounds zt'.recvBuffer
  capacity : zt'.recvBuffer.capacity = zt.recvBuffer.capacity
  size_le : cbSize zt'.recvBuffer ≤ cbSize zt.recvBuffer
  sendBuffer : zt'.sendBuffer = zt.sendBuffer
  mtu : zt'.mtu = zt.mtu

theorem resync_shrinks {fuel : Nat} {zt : GenericSerial} (bounds : InBounds zt.recvBuffer)
    (nonempty : 0 < cbSize zt.recvBuffer) (enough : cbSize zt.recvBuffer ≤ fuel) :
    ∃ cb, resync fuel zt.recvBuffer = some cb ∧ Shrinks zt { zt with recvBuffer := cb } ∧
      cbSize cb < cbSize zt.recvBuffer := by
  obtain ⟨x, xs, bytes⟩ :=
    List.exists_cons_of_length_pos (show 0 < (contents zt.recvBuffer).length by simpa using nonempty)
  obtain ⟨cb, skipped, ends, bounds', rest, -⟩ := resync_spec bounds bytes enough
  have before : cbSize zt.recvBuffer = xs.length + 1 := by rw [← contents_length, bytes, List.length_cons]
  have after : xs.length = skipped.length + cbSize cb := by rw [rest, List.length_append, contents_length]
  exact ⟨cb, ends, ⟨bounds', resync_capacity ends, by simp only; omega, rfl, rfl⟩, by omega⟩

theorem serialRecvmsg_shrinks {time : Nat → Nat} {fuel : Nat} {zt zt' : GenericSerial} {r : Recv}
    (bounds : InBounds zt.recvBuffer) (enough : cbSize zt.recvBuffer < fuel)
    (returns : serialRecvmsg time fuel zt = some (r, zt')) : Shrinks zt zt' := by
  induction fuel generalizing zt with
  | zero => cases returns
  | succ fuel ih =>
      rw [serialRecvmsg] at returns
      cases attempt : recvAttempt zt with
      | done found =>
          obtain ⟨m, size⟩ := found
          simp only [attempt] at returns
          cases returns
          have le := recvAttempt_done attempt
          obtain ⟨bounds', rest⟩ := cbPopFront_spec bounds le
          refine ⟨bounds', rfl, ?_, rfl, rfl⟩
          rw [← contents_length, ← contents_length, rest, List.length_drop]
          exact Nat.sub_le _ _
      | again =>
          simp only [attempt] at returns
          cases returns
          exact ⟨bounds, rfl, Nat.le_refl _, rfl, rfl⟩
      | overflow =>
          simp only [attempt] at returns
          cases returns
          exact ⟨bounds, rfl, Nat.le_refl _, rfl, rfl⟩
      | fail =>
          have long := recvAttempt_fail attempt
          obtain ⟨cb, ends, shrinks, smaller⟩ := resync_shrinks bounds (Nat.lt_of_lt_of_le (by decide) long)
            (Nat.le_of_lt_succ enough)
          simp only [attempt, ends, Option.bind_some] at returns
          have rest := ih shrinks.bounds (by simp only; omega) returns
          exact ⟨rest.bounds, rest.capacity.trans shrinks.capacity, Nat.le_trans rest.size_le shrinks.size_le,
            rest.sendBuffer, rest.mtu⟩

end Kept

inductive Op
  | sendmsg (m : Msg)
  | recvmsg (time : Nat → Nat)
  | updateRx (first second : Nat) (input : List Byte)
  | updateTx (first second : Nat)

namespace GenericSerial

def next (zt : GenericSerial) : Op → Option GenericSerial
  | .sendmsg m => some (serialSendmsg zt m).2
  | .recvmsg time =>
      match serialRecvmsg time (cbSize zt.recvBuffer + 1) zt with
      | some (.eok _ _, zt') => some zt'
      | some (.eagain, zt') => some zt'
      | _ => none
  | .updateRx first second input => some (serialUpdateRx zt first second input).1
  | .updateTx first second => some (serialUpdateTx zt first second).2

structure Sized (bufSize mtu : Nat) (zt : GenericSerial) : Prop where
  sendBounds : InBounds zt.sendBuffer
  recvBounds : InBounds zt.recvBuffer
  sendCapacity : zt.sendBuffer.capacity = bufSize
  recvCapacity : zt.recvBuffer.capacity = bufSize
  mtu_eq : zt.mtu = mtu

variable {bufSize mtu : Nat} {zt zt' : GenericSerial}

theorem Sized.shrinks (h : zt.Sized bufSize mtu) (shrinks : Shrinks zt zt') : zt'.Sized bufSize mtu where
  sendBounds := shrinks.sendBuffer ▸ h.sendBounds
  recvBounds := shrinks.bounds
  sendCapacity := shrinks.sendBuffer ▸ h.sendCapacity
  recvCapacity := shrinks.capacity.trans h.recvCapacity
  mtu_eq := shrinks.mtu.trans h.mtu_eq

theorem Sized.next (h : zt.Sized bufSize mtu) (op : Op) (steps : zt.next op = some zt') : zt'.Sized bufSize mtu := by
  cases op with
  | sendmsg m =>
      cases steps
      obtain ⟨r, cb, result, bounds, -⟩ := serialSendmsg_spec h.sendBounds m
      have capacity := serialSendmsg_capacity zt m
      rw [result] at capacity ⊢
      exact ⟨bounds, h.recvBounds, capacity.trans h.sendCapacity, h.recvCapacity, h.mtu_eq⟩
  | recvmsg time =>
      simp only [GenericSerial.next] at steps
      split at steps
      next m utime zt'' returns =>
        cases steps
        exact h.shrinks (serialRecvmsg_shrinks h.recvBounds (Nat.lt_succ_self _) returns)
      next zt'' returns =>
        cases steps
        exact h.shrinks (serialRecvmsg_shrinks h.recvBounds (Nat.lt_succ_self _) returns)
      · cases steps
  | updateRx first second input =>
      cases steps
      exact ⟨h.sendBounds, (cbFlushIn_spec h.recvBounds first second input).1, h.sendCapacity,
        (cbFlushIn_capacity ..).trans h.recvCapacity, h.mtu_eq⟩
  | updateTx first second =>
      cases steps
      exact ⟨(cbFlushOut_spec h.sendBounds first second).1, h.recvBounds,
        (cbFlushOut_capacity ..).trans h.sendCapacity, h.recvCapacity, h.mtu_eq⟩

theorem Sized.run (h : zt.Sized bufSize mtu) {ops : List Op} (runs : Runs.run GenericSerial.next zt ops = some zt') :
    zt'.Sized bufSize mtu := by
  have meets : Runs.Meets GenericSerial.next (fun _ _ => True) zt ops := Runs.meets_of_forall (fun _ _ _ => trivial) zt
  exact Runs.run_invariant (fun s op t inv _ steps => Sized.next inv op steps) h meets List.prefix_rfl runs

/-- With an empty send buffer every message within the limits is accepted. -/
def Accepts (zt : GenericSerial) : Prop :=
  ∀ ops t, Runs.run GenericSerial.next zt ops = some t → cbSize t.sendBuffer = 0 →
    ∀ m : Msg, m.channel.chars.length ≤ channelMaxlen → m.buf.length ≤ zt.mtu → (serialSendmsg t m).1 = .eok

/-- With a full receive buffer a call returns a message or gives up at least one byte. -/
def Unclogs (zt : GenericSerial) : Prop :=
  ∀ ops t, Runs.run GenericSerial.next zt ops = some t → cbRoom t.recvBuffer = 0 → ∀ time,
    ∃ r t', serialRecvmsg time (cbSize t.recvBuffer + 1) t = some (r, t') ∧
      ((∃ m utime, r = .eok m utime) ∨ r = .eagain ∧ cbSize t'.recvBuffer < cbSize t.recvBuffer)

theorem Sized.accepts (h : zt.Sized bufSize mtu) (room : longestFrame mtu < bufSize) : zt.Accepts := by
  intro ops t runs empty m chan len
  have sized := h.run runs
  rw [h.mtu_eq] at len
  obtain ⟨r, cb, result, -, accepted, -⟩ := serialSendmsg_spec sized.sendBounds m
  rw [result]
  refine accepted.mpr ⟨chan, by rwa [sized.mtu_eq], ?_⟩
  have longest := frame_length_le chan len
  have total := sized.sendBounds.cbRoom_add
  rw [sized.sendCapacity] at total
  omega

theorem Sized.unclogs (h : zt.Sized bufSize mtu) (room : longestFrame mtu < bufSize) (small : mtu < intLimit) :
    zt.Unclogs := by
  intro ops t runs full time
  have sized := h.run runs
  have total := sized.recvBounds.cbRoom_add
  rw [sized.recvCapacity, full] at total
  have long : frameBytes ≤ cbSize t.recvBuffer := by
    simp only [longestFrame] at room
    omega
  have notShort : verdict t.mtu (contents t.recvBuffer) ≠ .short := by
    refine verdict_ne_short ?_
    rw [contents_length, sized.mtu_eq]
    omega
  have attempt := (recvAttempt_spec long).2 (not_overruns_of_mtu (sized.mtu_eq.symm ▸ small) _)
  rw [serialRecvmsg, attempt]
  generalize verdict t.mtu (contents t.recvBuffer) = v at notShort
  cases v with
  | short => exact absurd rfl notShort
  | frame m size => exact ⟨_, _, rfl, .inl ⟨m, _, rfl⟩⟩
  | bad =>
      obtain ⟨cb, ends, shrinks, smaller⟩ := resync_shrinks sized.recvBounds (Nat.lt_of_lt_of_le (by decide) long)
        (Nat.le_refl _)
      have clean : Clean t.mtu (contents cb ++ []) := clean_of_mtu (sized.mtu_eq.symm ▸ small) _
      obtain ⟨r, cb', returns, -, -, result⟩ :=
        @serialRecvmsg_spec time (cbSize t.recvBuffer) { t with recvBuffer := cb } shrinks.bounds smaller [] clean
      refine ⟨r, { t with recvBuffer := cb' }, ?_, ?_⟩
      · simp only [Verdict.toScan, ends, Option.bind_some]
        exact returns
      · rcases result with eok | ⟨eagain, -⟩
        · exact .inl eok
        · refine .inr ⟨eagain, Nat.lt_of_le_of_lt ?_ smaller⟩
          exact (serialRecvmsg_shrinks shrinks.bounds smaller returns).size_le

theorem sized_create {sendData recvData : Mem Byte} (positive : 0 < bufSize) :
    Sized bufSize mtu ⟨cbInit sendData bufSize, cbInit recvData bufSize, mtu⟩ :=
  ⟨inBounds_cbInit sendData positive, inBounds_cbInit recvData positive, rfl, rfl, rfl⟩

theorem exists_full {sendData recvData : Mem Byte} {input : List Byte} (fills : input.length + 1 = bufSize) :
    ∃ t, Runs.run GenericSerial.next ⟨cbInit sendData bufSize, cbInit recvData bufSize, mtu⟩
        [.updateRx bufSize 0 input] = some t ∧ contents t.recvBuffer = input ∧ cbRoom t.recvBuffer = 0 ∧
          t.mtu = mtu := by
  have sized : Sized bufSize mtu ⟨cbInit sendData bufSize, cbInit recvData bufSize, mtu⟩ := sized_create (by omega)
  refine ⟨_, rfl, ?_, ?_, rfl⟩
  · exact cbFlushIn_fresh recvData (by omega) (by omega) 0
  · have after := sized.next (.updateRx bufSize 0 input) rfl
    have bytes : contents (cbFlushIn (cbInit recvData bufSize) bufSize 0 input).1 = input :=
      cbFlushIn_fresh recvData (by omega) (by omega) 0
    have size := congrArg List.length bytes
    rw [contents_length] at size
    have total := after.recvBounds.cbRoom_add
    rw [after.recvCapacity] at total
    simp only [serialUpdateRx] at total ⊢
    omega

theorem longestFrame_lt_of_accepts {sendData recvData : Mem Byte} (positive : 0 < bufSize)
    (accepts : Accepts ⟨cbInit sendData bufSize, cbInit recvData bufSize, mtu⟩) : longestFrame mtu < bufSize := by
  have sized : Sized bufSize mtu ⟨cbInit sendData bufSize, cbInit recvData bufSize, mtu⟩ := sized_create positive
  have len : (fullMsg mtu).buf.length = mtu := List.length_replicate
  have eok := accepts [] _ rfl rfl (fullMsg mtu) List.length_replicate.le len.le
  obtain ⟨r, cb, result, -, accepted, -⟩ := serialSendmsg_spec sized.sendBounds (fullMsg mtu)
  rw [result] at eok
  obtain ⟨-, -, fits⟩ := accepted.mp eok
  rw [fullMsg_frame_length] at fits
  have total := sized.sendBounds.cbRoom_add
  rw [sized.sendCapacity] at total
  omega

theorem mtu_lt_of_unclogs {sendData recvData : Mem Byte} (room : longestFrame mtu < bufSize)
    (unclogs : Unclogs ⟨cbInit sendData bufSize, cbInit recvData bufSize, mtu⟩) : mtu < intLimit := by
  by_contra large
  have len : (largeMsg intLimit).buf.length ≤ mtu := by
    rw [largeMsg_buf_length]
    omega
  have fits := frame_length_le (m := largeMsg intLimit) (Nat.zero_le _) len
  obtain ⟨t, runs, bytes, full, mtu_eq⟩ := @exists_full bufSize mtu sendData recvData
    (frame (largeMsg intLimit) ++ List.replicate (bufSize - 1 - (frame (largeMsg intLimit)).length) 0) (by simp; omega)
  obtain ⟨r, t', returns, result⟩ := unclogs _ t runs full id
  have overrun : Overruns t.mtu (contents t.recvBuffer) := by
    rw [bytes]
    have data := largeMsg_buf_length intLimit
    exact overruns_frame (Nat.zero_le _) (mtu_eq.symm ▸ len) data.ge (data.trans_lt (by decide)) _
  have long : frameBytes ≤ cbSize t.recvBuffer := by
    rw [← contents_length, bytes, List.length_append, frame_length]
    omega
  rw [serialRecvmsg_overflow overrun long] at returns
  cases returns
  rcases result with ⟨m, utime, eok⟩ | ⟨eagain, -⟩
  · cases eok
  · cases eagain

/-- A transport keeps going exactly if its buffers have room for the longest frame of its MTU and that MTU is within
the range of the index of the loop that reads the data. -/
theorem create_keeps_going_iff (sendData recvData : Mem Byte) (mtu bufSize : Nat) (zt : GenericSerial)
    (created : create sendData recvData mtu bufSize = some zt) :
    zt.Accepts ∧ zt.Unclogs ↔ frameBytes + 2 * (channelMaxlen + mtu) < bufSize ∧ mtu < 2 ^ 31 := by
  obtain ⟨rfl, positive, fits⟩ := create_spec created
  have sized : Sized bufSize mtu ⟨cbInit sendData bufSize, cbInit recvData bufSize, mtu⟩ := sized_create (by omega)
  constructor
  · rintro ⟨accepts, unclogs⟩
    have room := longestFrame_lt_of_accepts (by omega) accepts
    exact ⟨room, mtu_lt_of_unclogs room unclogs⟩
  · rintro ⟨room, small⟩
    exact ⟨sized.accepts room, sized.unclogs room small⟩

theorem create_keeps_going_of_76 :
    ∃ zt, create (fun _ => 0) (fun _ => 0) 1 76 = some zt ∧ zt.Accepts ∧ zt.Unclogs :=
  ⟨_, rfl, (create_keeps_going_iff (fun _ => 0) (fun _ => 0) 1 76 _ rfl).mpr (by decide)⟩

/-- The smallest buffers that `create` accepts for an MTU of one byte: no message with data can be sent, and a header
that announces one byte fills the receive buffer for good. -/
theorem create_wedges :
    ∃ zt, create (fun _ => 0) (fun _ => 0) 1 10 = some zt ∧ ¬ zt.Accepts ∧ ¬ zt.Unclogs := by
  refine ⟨_, rfl, fun accepts => ?_, fun unclogs => ?_⟩
  · have room := longestFrame_lt_of_accepts (by decide) accepts
    exact absurd room (by decide)
  · obtain ⟨t, runs, bytes, full, mtu_eq⟩ := @exists_full 10 1 (fun _ => 0) (fun _ => 0)
      [0xcc, 0, 0, 0, 0, 0, 1, 0, 0] rfl
    obtain ⟨r, t', returns, result⟩ := unclogs _ t runs full id
    have size : cbSize t.recvBuffer = 9 := by
      rw [← contents_length, bytes]
      rfl
    have isShort : verdict t.mtu (contents t.recvBuffer) = .short := by
      rw [bytes, mtu_eq]
      rfl
    have attempt := (recvAttempt_spec size.ge).2 (not_overruns_of_mtu (mtu_eq.symm ▸ by decide) _)
    rw [serialRecvmsg, attempt, isShort] at returns
    cases returns
    rcases result with ⟨m, utime, eok⟩ | ⟨-, smaller⟩
    · cases eok
    · exact absurd smaller (Nat.lt_irrefl _)

end GenericSerial

end Zcm.Serial
