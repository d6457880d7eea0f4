import Zcm.Lib.Runs
import Zcm.Serial.Recv

namespace Zcm.Serial
open Zcm.Lib

inductive Visits (mtu : Nat) : List Byte → List Byte → Prop
  | here (xs : List Byte) : Visits mtu xs xs
  | frame {xs ys : List Byte} {m : Msg} {size : Nat} (isFrame : verdict mtu xs = .frame m size)
      (rest : Visits mtu (xs.drop size) ys) : Visits mtu xs ys
  | bad {x : Byte} {xs ys : List Byte} (isBad : verdict mtu (x :: xs) = .bad) (rest : Visits mtu xs ys) :
      Visits mtu (x :: xs) ys

def Clean (mtu : Nat) (xs : List Byte) : Prop := ∀ ys, Visits mtu xs ys → ¬ Overruns mtu ys

theorem overruns_append {mtu : Nat} {xs : List Byte} (h : Overruns mtu xs) (ys : List Byte) :
    Overruns mtu (xs ++ ys) := by
  by_cases long : 7 ≤ xs.length
  · obtain ⟨b0, b1, b2, b3, b4, b5, b6, body, rfl⟩ := exists_header long
    obtain ⟨ok, large, plain, rest, read⟩ := h
    exact ⟨ok, large, plain, rest ++ ys, unescape_append read ys⟩
  · match xs, h with
    | _ :: _ :: _ :: _ :: _ :: _ :: _ :: _, _ => simp at long

structure Advance (mtu : Nat) (xs : List Byte) (ms : List Msg) (xs' : List Byte) : Prop where
  scan : ∀ w, scan mtu (xs ++ w) = ms ++ Serial.scan mtu (xs' ++ w)
  clean : ∀ w, Clean mtu (xs ++ w) → Clean mtu (xs' ++ w)

theorem Advance.refl (mtu : Nat) (xs : List Byte) : Advance mtu xs [] xs := ⟨fun _ => rfl, fun _ => id⟩

theorem Advance.trans {mtu : Nat} {xs ys zs : List Byte} {ms ns : List Msg} (first : Advance mtu xs ms ys)
    (second : Advance mtu ys ns zs) : Advance mtu xs (ms ++ ns) zs where
  scan w := by rw [first.scan, second.scan, List.append_assoc]
  clean w := second.clean w ∘ first.clean w

theorem advance_frame {mtu : Nat} {xs : List Byte} {m : Msg} {size : Nat}
    (isFrame : verdict mtu xs = .frame m size) : Advance mtu xs [m] (xs.drop size) := by
  obtain ⟨low, high⟩ := verdict_size isFrame
  constructor
  · intro w
    rw [scan_frame (Nat.lt_of_lt_of_le (by decide) low) (verdict_append isFrame w),
      List.drop_append_of_le_length high]
    rfl
  · intro w clean ys visits
    refine clean ys (.frame (verdict_append isFrame w) ?_)
    rwa [List.drop_append_of_le_length high]

theorem advance_bad {mtu : Nat} {x : Byte} {xs : List Byte} (isBad : verdict mtu (x :: xs) = .bad) :
    Advance mtu (x :: xs) [] xs where
  scan w := scan_bad (verdict_append_bad isBad w)
  clean w clean ys visits := clean ys (.bad (verdict_append_bad isBad w) visits)

theorem advance_skip {mtu : Nat} {skipped : List Byte} (plain : ∀ b ∈ skipped, b ≠ escapeChar)
    (xs : List Byte) : Advance mtu (skipped ++ xs) [] xs := by
  induction skipped with
  | nil => exact .refl mtu xs
  | cons b skipped ih =>
      have first : Advance mtu (b :: (skipped ++ xs)) [] (skipped ++ xs) :=
        advance_bad (verdict_of_ne (plain b (by simp)))
      exact first.trans (ih fun c member => plain c (by simp [member]))

theorem scan_of_lt {mtu : Nat} {xs : List Byte} (h : xs.length < frameBytes) : scan mtu xs = [] := by
  induction xs with
  | nil => rfl
  | cons x xs ih =>
      cases v : verdict mtu (x :: xs) with
      | frame m size =>
          have := verdict_size v
          omega
      | short => exact scan_short v
      | bad =>
          rw [scan_bad v]
          exact ih (by simp at h; omega)

theorem resync_spec {fuel : Nat} {cb : CircBuffer} (h : InBounds cb) {x : Byte} {xs : List Byte}
    (bytes : contents cb = x :: xs) (enough : cbSize cb ≤ fuel) :
    ∃ cb' skipped, resync fuel cb = some cb' ∧ InBounds cb' ∧ xs = skipped ++ contents cb' ∧
      ∀ b ∈ skipped, b ≠ escapeChar := by
  have size : cbSize cb = xs.length + 1 := by rw [← contents_length, bytes, List.length_cons]
  induction fuel generalizing cb x xs with
  | zero => omega
  | succ fuel ih =>
      have one : 1 ≤ cbSize cb := by omega
      obtain ⟨bounds, popped⟩ := cbPopFront_spec h one
      rw [bytes, List.drop_one, List.tail_cons] at popped
      rw [resync]
      split
      next more =>
        cases xs with
        | nil =>
            have : cbSize (cbPopFront cb 1) = 0 := by rw [← contents_length, popped]; rfl
            exact absurd this more.1
        | cons y ys =>
            have size' : cbSize (cbPopFront cb 1) = ys.length + 1 := by
              rw [← contents_length, popped, List.length_cons]
            have front : cbFront (cbPopFront cb 1) 0 = y := cbFront_of_drop (k := 0) popped
            obtain ⟨cb', skipped, ends, bounds', rest, plain⟩ := ih bounds popped (by simp at size; omega) size'
            refine ⟨cb', y :: skipped, ends, bounds', by rw [rest, List.cons_append], ?_⟩
            intro b member
            rcases List.mem_cons.mp member with rfl | member
            · rw [← front]
              exact more.2
            · exact plain b member
      · exact ⟨_, [], rfl, bounds, popped.symm, by simp⟩

def Recv.messages : Recv → List Msg
  | .eok m _ => [m]
  | _ => []

theorem serialRecvmsg_spec (time : Nat → Nat) {fuel : Nat} {zt : GenericSerial}
    (bounds : InBounds zt.recvBuffer) (enough : cbSize zt.recvBuffer < fuel) {w : List Byte}
    (clean : Clean zt.mtu (contents zt.recvBuffer ++ w)) :
    ∃ r cb, serialRecvmsg time fuel zt = some (r, { zt with recvBuffer := cb }) ∧ InBounds cb ∧
      Advance zt.mtu (contents zt.recvBuffer) r.messages (contents cb) ∧
      ((∃ m utime, r = .eok m utime) ∨ r = .eagain ∧ scan zt.mtu (contents cb) = []) := by
  induction fuel generalizing zt with
  | zero => omega
  | succ fuel ih =>
      rw [serialRecvmsg]
      by_cases long : frameBytes ≤ cbSize zt.recvBuffer
      · have fits : ¬ Overruns zt.mtu (contents zt.recvBuffer) := fun overrun =>
          clean _ (.here _) (overruns_append overrun w)
        rw [(recvAttempt_spec long).2 fits]
        cases v : verdict zt.mtu (contents zt.recvBuffer) with
        | frame m size =>
            have le : size ≤ cbSize zt.recvBuffer := by
              rw [← contents_length]
              exact (verdict_size v).2
            obtain ⟨bounds', rest⟩ := cbPopFront_spec bounds le
            refine ⟨_, _, rfl, bounds', ?_, .inl ⟨m, _, rfl⟩⟩
            rw [rest]
            exact advance_frame v
        | short => exact ⟨_, _, rfl, bounds, .refl .., .inr ⟨rfl, scan_short v⟩⟩
        | bad =>
            cases bytes : contents zt.recvBuffer with
            | nil =>
                have : cbSize zt.recvBuffer = 0 := by rw [← contents_length, bytes]; rfl
                rw [this] at long
                cases long
            | cons x xs =>
                have size : cbSize zt.recvBuffer = xs.length + 1 := by
                  rw [← contents_length, bytes, List.length_cons]
                obtain ⟨cb, skipped, ends, bounds', rest, plain⟩ :=
                  resync_spec bounds bytes (Nat.le_of_lt_succ enough)
                rw [bytes, rest] at v clean
                have skip : Advance zt.mtu (x :: (skipped ++ contents cb)) [] (contents cb) :=
                  (advance_bad v).trans (advance_skip plain _)
                have smaller : cbSize cb ≤ xs.length := by
                  rw [← contents_length, rest]
                  simp
                obtain ⟨r, cb', returns, bounds'', advance, result⟩ :=
                  @ih { zt with recvBuffer := cb } bounds' (by simp only; omega) (skip.clean w clean)
                refine ⟨r, cb', ?_, bounds'', ?_, result⟩
                · simp only [Verdict.toScan, ends, Option.bind_some, returns]
                · rw [rest]
                  exact skip.trans advance
      · have again : recvAttempt zt = .again := if_pos (by omega)
        rw [again]
        exact ⟨_, _, rfl, bounds, .refl .., .inr ⟨rfl, scan_of_lt (by rw [contents_length]; omega)⟩⟩

structure Receiver where
  zt : GenericSerial
  input : List Byte
  returned : List Msg

inductive RecvEvent
  | updateRx (first second : Nat)
  | recvmsg (time : Nat → Nat)

def Receiver.next (s : Receiver) : RecvEvent → Option Receiver
  | .updateRx first second =>
      let r := serialUpdateRx s.zt first second s.input
      some { s with zt := r.1, input := r.2 }
  | .recvmsg time =>
      match serialRecvmsg time (cbSize s.zt.recvBuffer + 1) s.zt with
      | some (.eok m _, zt) => some { s with zt := zt, returned := s.returned ++ [m] }
      | some (.eagain, zt) => some { s with zt := zt }
      | _ => none

structure Receiver.Inv (mtu : Nat) (stream : List Byte) (s : Receiver) : Prop where
  bounds : InBounds s.zt.recvBuffer
  mtu_eq : s.zt.mtu = mtu
  clean : Clean mtu (contents s.zt.recvBuffer ++ s.input)
  scanned : s.returned ++ scan mtu (contents s.zt.recvBuffer ++ s.input) = scan mtu stream

theorem Receiver.Inv.next {mtu : Nat} {stream : List Byte} {s : Receiver} (inv : s.Inv mtu stream)
    (e : RecvEvent) : ∃ t, s.next e = some t ∧ t.Inv mtu stream := by
  cases e with
  | updateRx first second =>
      obtain ⟨bounds, bytes⟩ := cbFlushIn_spec inv.bounds first second s.input
      refine ⟨_, rfl, bounds, inv.mtu_eq, ?_, ?_⟩
      · simp only [serialUpdateRx, bytes]
        exact inv.clean
      · simp only [serialUpdateRx, bytes]
        exact inv.scanned
  | recvmsg time =>
      obtain ⟨rfl⟩ := inv.mtu_eq
      obtain ⟨r, cb, returns, bounds, advance, result⟩ :=
        serialRecvmsg_spec time inv.bounds (Nat.lt_succ_self _) inv.clean
      have scanned := inv.scanned
      rw [advance.scan, ← List.append_assoc] at scanned
      have clean := advance.clean _ inv.clean
      simp only [Receiver.next, returns]
      rcases result with ⟨m, utime, rfl⟩ | ⟨rfl, -⟩
      · exact ⟨_, rfl, bounds, rfl, clean, scanned⟩
      · refine ⟨_, rfl, bounds, rfl, clean, ?_⟩
        simpa [Recv.messages] using scanned

/-- Every call of the run returns, as does every call after it, and once all bytes are in and a call
has returned ZCM_EAGAIN, the messages returned are those of the scan. -/
def Receiver.FollowsScan (s : Receiver) (es : List RecvEvent) : Prop :=
  ∃ t, Runs.run Receiver.next s es = some t ∧
    (∀ time fuel, cbSize t.zt.recvBuffer < fuel → (serialRecvmsg time fuel t.zt).isSome) ∧
    (t.input = [] → ∀ time zt,
      serialRecvmsg time (cbSize t.zt.recvBuffer + 1) t.zt = some (.eagain, zt) →
        t.returned = scan s.zt.mtu s.input)

theorem create_spec {sendData recvData : Mem Byte} {mtu bufSize : Nat} {zt : GenericSerial}
    (created : create sendData recvData mtu bufSize = some zt) :
    zt = ⟨cbInit sendData bufSize, cbInit recvData bufSize, mtu⟩ ∧ 0 < mtu ∧ frameBytes + mtu ≤ bufSize := by
  unfold create at created
  split at created <;> cases created
  exact ⟨rfl, by omega, by omega⟩

/-- The receiver follows the scan in every run over a stream in which the scan comes to no message
that overruns the data loop. -/
theorem receiver_follows_scan (sendData recvData : Mem Byte) (mtu bufSize : Nat) (zt : GenericSerial)
    (created : create sendData recvData mtu bufSize = some zt) (stream : List Byte)
    (clean : Clean mtu stream) (es : List RecvEvent) : Receiver.FollowsScan ⟨zt, stream, []⟩ es := by
  obtain ⟨rfl, positive, fits⟩ := create_spec created
  have bounds : InBounds (cbInit recvData bufSize) := inBounds_cbInit recvData (by omega)
  have initial : Receiver.Inv mtu stream
      ⟨⟨cbInit sendData bufSize, cbInit recvData bufSize, mtu⟩, stream, []⟩ :=
    ⟨bounds, rfl, clean, rfl⟩
  obtain ⟨t, runs, inv⟩ := Runs.run_total (fun s e (inv : s.Inv mtu stream) _ => inv.next e) initial
    (Runs.meets_of_forall (fun _ _ _ => trivial) _)
  have mtu_eq := inv.mtu_eq
  subst mtu_eq
  refine ⟨t, runs, ?_, ?_⟩
  · intro time fuel enough
    obtain ⟨r, cb, returns, -⟩ := serialRecvmsg_spec time inv.bounds enough inv.clean
    rw [returns]
    rfl
  · intro drained time zt again
    obtain ⟨r, cb, returns, -, advance, result⟩ :=
      serialRecvmsg_spec time inv.bounds (Nat.lt_succ_self _) inv.clean
    rw [returns] at again
    obtain ⟨rfl, -⟩ := Prod.mk.inj (Option.some.inj again)
    rcases result with ⟨m, utime, impossible⟩ | ⟨-, empty⟩
    · cases impossible
    · have scanned := inv.scanned
      rw [drained, advance.scan, List.append_nil, empty] at scanned
      simpa [Recv.messages] using scanned

theorem clean_of_length {mtu : Nat} {xs : List Byte} (short : xs.length < intLimit) : Clean mtu xs := by
  intro ys visits
  induction visits with
  | here xs =>
      intro overrun
      by_cases long : 7 ≤ xs.length
      · obtain ⟨b0, b1, b2, b3, b4, b5, b6, body, rfl⟩ := exists_header long
        obtain ⟨-, -, plain, rest, read⟩ := overrun
        simp only [List.length_cons] at short
        rw [unescape_short (by omega)] at read
        cases read
      · match xs, overrun with
        | _ :: _ :: _ :: _ :: _ :: _ :: _ :: _, _ => simp at long
  | frame _ _ ih => exact ih (by simp; omega)
  | bad _ _ ih => exact ih (by simp at short; omega)

theorem receiver_follows_scan_noise :
    scan 4 (0x01 :: frame ⟨⟨[0x41], by decide⟩, [0xcc]⟩) = [⟨⟨[0x41], by decide⟩, [0xcc]⟩] ∧
      Receiver.FollowsScan
        ⟨⟨cbInit (fun _ => 0) 32, cbInit (fun _ => 0) 32, 4⟩,
          0x01 :: frame ⟨⟨[0x41], by decide⟩, [0xcc]⟩, []⟩
        [.updateRx 5 0, .recvmsg id, .updateRx 4 0, .recvmsg id, .updateRx 32 0, .recvmsg id] :=
  ⟨by decide, receiver_follows_scan (fun _ => 0) (fun _ => 0) 4 32 _ rfl _ (clean_of_length (by decide)) _⟩

theorem not_followsScan_frame {data : Mem Byte} {cb : CircBuffer} {mtu sz : Nat} {m : Msg}
    (chan : m.channel.chars.length ≤ channelMaxlen) (len : m.buf.length ≤ mtu)
    (large : intLimit ≤ m.buf.length) (announced : m.buf.length < 2 ^ 32) (fits : (frame m).length < sz)
    (time : Nat → Nat) :
    ¬ Receiver.FollowsScan ⟨⟨cb, cbInit data sz, mtu⟩, frame m, []⟩
      [.updateRx (frame m).length 0, .recvmsg time] := by
  rintro ⟨t, runs, -⟩
  obtain ⟨u, first, rest⟩ := Runs.run_cons runs
  obtain ⟨v, second, -⟩ := Runs.run_cons rest
  cases first
  have bytes := cbFlushIn_fresh data fits (Nat.le_refl _) 0
  have overrun := overruns_frame chan len large announced []
  rw [List.append_nil] at overrun
  simp only [Receiver.next, serialUpdateRx] at second
  rw [serialRecvmsg_overflow] at second
  · cases second
  · simp only [bytes]
    exact overrun
  · rw [← contents_length]
    simp only [bytes]
    rw [frame_length]
    omega

def largeMsg (n : Nat) : Msg := ⟨⟨[], List.not_mem_nil⟩, List.replicate n 0⟩

theorem largeMsg_buf_length (n : Nat) : (largeMsg n).buf.length = n := List.length_replicate

theorem largeMsg_frame_length (n : Nat) : (frame (largeMsg n)).length = frameBytes + n := by
  rw [frame_length, escape_of_plain]
  · rw [List.length_append, largeMsg_buf_length]
    exact congrArg (frameBytes + ·) (Nat.zero_add n)
  · intro b member
    have zero : b = 0 := (List.mem_replicate.mp member).2
    rw [zero]
    decide

/-- A message that a build in which the index wraps loses too. -/
def lostMsg : Msg := largeMsg (intLimit + 1)

theorem lostMsg_buf_length : lostMsg.buf.length = intLimit + 1 := largeMsg_buf_length _

theorem lostMsg_frame_length : (frame lostMsg).length = frameBytes + (intLimit + 1) := largeMsg_frame_length _

theorem receiver_overflows :
    ∃ zt, create (fun _ => 0) (fun _ => 0) (intLimit + 1) (frameBytes + intLimit + 2) = some zt ∧
      ¬ Receiver.FollowsScan ⟨zt, frame lostMsg, []⟩ [.updateRx (frame lostMsg).length 0, .recvmsg id] := by
  refine ⟨⟨cbInit _ _, cbInit _ _, _⟩, if_neg (by decide), ?_⟩
  refine not_followsScan_frame (Nat.zero_le _) (Nat.le_of_eq lostMsg_buf_length) ?_ ?_ ?_ id
  · rw [lostMsg_buf_length]
    exact Nat.le_succ _
  · rw [lostMsg_buf_length]
    decide
  · rw [lostMsg_frame_length]
    exact Nat.lt_succ_self _

end Zcm.Serial
