import Zcm.Serial.Framing

namespace Zcm.Serial
open Zcm.Lib

theorem mul_pow_or {i b : Nat} (a : Nat) (h : b < 2 ^ i) : a * 2 ^ i ||| b = a * 2 ^ i + b := by
  rw [← Nat.shiftLeft_eq, Nat.shiftLeft_add_eq_or_of_lt h]

theorem lengthField_toNat (b0 b1 b2 b3 : Byte) :
    (lengthField b0 b1 b2 b3).toNat = ofBe [b0, b1, b2, b3] := by
  have h0 := b0.isLt
  have h1 := b1.isLt
  have h2 := b2.isLt
  have h3 := b3.isLt
  have first : b0.toNat * 2 ^ 24 ||| b1.toNat * 2 ^ 16 = (b0.toNat * 2 ^ 8 + b1.toNat) * 2 ^ 16 := by
    rw [mul_pow_or _ (by omega)]
    omega
  have second : (b0.toNat * 2 ^ 8 + b1.toNat) * 2 ^ 16 ||| b2.toNat * 2 ^ 8 =
      ((b0.toNat * 2 ^ 8 + b1.toNat) * 2 ^ 8 + b2.toNat) * 2 ^ 8 := by
    rw [mul_pow_or _ (by omega)]
    omega
  simp only [lengthField, BitVec.toNat_or, BitVec.toNat_shiftLeft, BitVec.toNat_setWidth, Nat.shiftLeft_eq]
  rw [Nat.mod_eq_of_lt (by omega : b0.toNat < 2 ^ 32), Nat.mod_eq_of_lt (by omega : b1.toNat < 2 ^ 32),
    Nat.mod_eq_of_lt (by omega : b2.toNat < 2 ^ 32), Nat.mod_eq_of_lt (by omega : b3.toNat < 2 ^ 32),
    Nat.mod_eq_of_lt (by omega : b0.toNat * 2 ^ 24 < 2 ^ 32),
    Nat.mod_eq_of_lt (by omega : b1.toNat * 2 ^ 16 < 2 ^ 32),
    Nat.mod_eq_of_lt (by omega : b2.toNat * 2 ^ 8 < 2 ^ 32), first, second, mul_pow_or _ h3]
  simp only [ofBe, List.length_cons, List.length_nil]
  omega

theorem checksumField_eq_iff (high low : Byte) (sum : BitVec 16) :
    (high.setWidth 16 <<< 8) ||| low.setWidth 16 = sum ↔ ofBe [high, low] = sum.toNat := by
  have h0 := high.isLt
  have h1 := low.isLt
  rw [← BitVec.toNat_inj]
  simp only [BitVec.toNat_or, BitVec.toNat_shiftLeft, BitVec.toNat_setWidth, Nat.shiftLeft_eq]
  rw [Nat.mod_eq_of_lt (by omega : high.toNat < 2 ^ 16), Nat.mod_eq_of_lt (by omega : low.toNat < 2 ^ 16),
    Nat.mod_eq_of_lt (by omega : high.toNat * 2 ^ 8 < 2 ^ 16), mul_pow_or _ h1]
  simp only [ofBe, List.length_cons, List.length_nil]
  omega

theorem cbFront_of_drop {cb : CircBuffer} {k : Nat} {c : Byte} {ys : List Byte}
    (h : (contents cb).drop k = c :: ys) : cbFront cb k = c := by
  have lt : k < (contents cb).length := by
    by_contra ge
    rw [List.drop_eq_nil_of_le (by omega)] at h
    cases h
  rw [cbFront_eq cb lt]
  rw [List.drop_eq_getElem_cons lt] at h
  exact (List.cons.inj h).1

theorem drop_succ_of_drop {xs : List Byte} {k : Nat} {c : Byte} {ys : List Byte}
    (h : xs.drop k = c :: ys) : xs.drop (k + 1) = ys := by
  rw [← List.drop_drop, h]
  rfl

def Unescaped.toScan {α : Type} (f : List Byte → List Byte → Scan α) : Unescaped → Scan α
  | .short => .again
  | .bad => .fail
  | .ok plain rest => f plain rest

def loopEnd (size i k : Nat) (cur : Cursor) (plain rest : List Byte) : Scan Cursor :=
  if i + k = intLimit then .overflow
  else .done ⟨size - rest.length, plain.foldl (fun sum b => fletcherUpdate b sum) cur.checksum,
    cur.out ++ plain⟩

theorem toScan_cons {α : Type} (u : Unescaped) (c : Byte) (f : List Byte → List Byte → Scan α) :
    (u.cons c).toScan f = u.toScan fun plain rest => f (c :: plain) rest := by
  cases u <;> rfl

theorem readEscaped_next {cb : CircBuffer} {guarded : Bool} {after left i : Nat} {cur : Cursor}
    (ih : ∀ (i : Nat) (cur : Cursor), i < intLimit →
      left + after + 2 ≤ ((contents cb).drop cur.consumed).length →
      readEscaped cb (cbSize cb) guarded after left i cur =
        (unescape (after + 2 + (left - min left (intLimit - i))) (min left (intLimit - i))
          ((contents cb).drop cur.consumed)).toScan (loopEnd (cbSize cb) i (min left (intLimit - i)) cur))
    (hi : i < intLimit) (c : Byte) {consumed : Nat} {ys : List Byte} (rest : (contents cb).drop consumed = ys)
    (long : left + after + 2 ≤ ys.length) :
    (if i + 1 = intLimit then .overflow
      else readEscaped cb (cbSize cb) guarded after left (i + 1)
        ⟨consumed, fletcherUpdate c cur.checksum, cur.out ++ [c]⟩) =
      (unescape (after + 2 + (left - min left (intLimit - (i + 1)))) (min left (intLimit - (i + 1)))
        ys).toScan fun plain rest =>
          loopEnd (cbSize cb) i (min left (intLimit - (i + 1)) + 1) cur (c :: plain) rest := by
  subst rest
  split
  next last =>
    rw [show min left (intLimit - (i + 1)) = 0 by omega, unescape, if_neg (by omega)]
    simp only [Unescaped.toScan, loopEnd]
    rw [if_pos (by omega)]
  next more =>
    rw [ih (i + 1) _ (by omega) long]
    congr 1
    funext plain rest
    simp only [loopEnd, List.foldl_cons, List.append_assoc, List.cons_append, List.nil_append]
    rw [Nat.add_assoc, Nat.add_comm 1]

theorem readEscaped_spec (cb : CircBuffer) (guarded : Bool) (after left i : Nat) (cur : Cursor)
    (hi : i < intLimit) (long : left + after + 2 ≤ ((contents cb).drop cur.consumed).length) :
    readEscaped cb (cbSize cb) guarded after left i cur =
      (unescape (after + 2 + (left - min left (intLimit - i))) (min left (intLimit - i))
        ((contents cb).drop cur.consumed)).toScan (loopEnd (cbSize cb) i (min left (intLimit - i)) cur) := by
  induction left generalizing i cur with
  | zero =>
      have total : ((contents cb).drop cur.consumed).length = cbSize cb - cur.consumed := by simp
      rw [Nat.zero_min, readEscaped, unescape, if_neg (by omega)]
      simp only [Unescaped.toScan, loopEnd, List.foldl_nil, List.append_nil]
      rw [if_neg (by omega), total, Nat.sub_sub_self (by omega)]
  | succ left ih =>
      have total : ((contents cb).drop cur.consumed).length = cbSize cb - cur.consumed := by simp
      have count : min (left + 1) (intLimit - i) = min left (intLimit - (i + 1)) + 1 := by omega
      have next := fun c consumed ys =>
        @readEscaped_next cb guarded after left i cur ih hi c consumed ys
      rw [readEscaped, if_neg (by omega), count, Nat.add_sub_add_right]
      generalize hk : min left (intLimit - (i + 1)) = k at next ⊢
      simp only [readOne]
      cases firstByte (after + 2 + (left - k)) k ((contents cb).drop cur.consumed) with
      | plain c ys notEscape eq =>
          rw [eq, List.length_cons] at long
          rw [cbFront_of_drop eq, if_neg notEscape, eq, unescape_plain notEscape, toScan_cons]
          exact next c _ ys (drop_succ_of_drop eq) (by omega)
      | escaped ys eq =>
          have eq' := drop_succ_of_drop eq
          rw [eq, List.length_cons, List.length_cons] at long total
          rw [cbFront_of_drop eq, if_pos rfl, cbFront_of_drop eq', eq, unescape_escaped, toScan_cons]
          split
          next tooFew =>
            rw [unescape_short (by omega)]
            rfl
          next =>
            rw [if_neg (by simp)]
            exact next escapeChar _ ys (drop_succ_of_drop eq') (by omega)
      | bad d ys notEscape enough eq =>
          have eq' := drop_succ_of_drop eq
          rw [eq, List.length_cons, List.length_cons] at long total
          rw [cbFront_of_drop eq, if_pos rfl, cbFront_of_drop eq', eq, unescape_bad notEscape,
            if_neg (by omega), if_pos notEscape, if_neg (by omega)]
          rfl
      | short cut eq =>
          rw [eq k _ rfl]
          rcases cut with empty | ⟨ys, start, few⟩
          · rw [empty] at long
            simp at long
          · rw [start, List.length_cons] at long total
            rw [cbFront_of_drop start, if_pos rfl, if_pos (by omega)]
            rfl

def Verdict.toScan : Verdict → Scan (Msg × Nat)
  | .short => .again
  | .bad => .fail
  | .frame m size => .done (m, size)

/-- The bytes start with a frame within the limits that is long enough for the data loop to reach the
end of the range of its index. -/
def overrunsOf (mtu : Nat) (b0 b1 chanLen : Byte) (len : Nat) (body : List Byte) : Prop :=
  headerOk mtu b0 b1 chanLen len ∧ intLimit ≤ len ∧
    ∃ plain rest, unescape (2 + (len - intLimit)) (chanLen.toNat + intLimit) body = .ok plain rest

def Overruns (mtu : Nat) : List Byte → Prop
  | b0 :: b1 :: b2 :: b3 :: b4 :: b5 :: b6 :: body =>
      overrunsOf mtu b0 b1 b2 (ofBe [b3, b4, b5, b6]) body
  | _ => False

theorem intLimit_gt : channelMaxlen < intLimit := by decide

theorem drop_of_suffix {xs front rest : List Byte} (h : xs = front ++ rest) :
    xs.drop (xs.length - rest.length) = rest := by
  subst h
  simp

theorem recvChecksum_spec {cb : CircBuffer} {front rest : List Byte} (suffix : contents cb = front ++ rest)
    (enough : 2 ≤ rest.length) (chan out : List Byte) (sum : BitVec 16) :
    recvChecksum cb chan ⟨cbSize cb - rest.length, sum, out⟩ =
      if ofBe (rest.take 2) = sum.toNat then
        .done (⟨CString.ofBytes chan, out⟩, cbSize cb - rest.length + 2)
      else .fail := by
  have tail := drop_of_suffix suffix
  rw [contents_length] at tail
  match rest, enough with
  | high :: low :: rest, _ =>
      simp only [recvChecksum, cbFront_of_drop tail, cbFront_of_drop (drop_succ_of_drop tail),
        List.take_succ_cons, List.take_zero]
      exact if_congr (checksumField_eq_iff high low sum) rfl rfl

theorem recvData_spec {cb : CircBuffer} {front rest : List Byte} (suffix : contents cb = front ++ rest)
    {len : Nat} (enough : len + 2 ≤ rest.length) (small : len < intLimit) (chan : List Byte)
    (sum : BitVec 16) :
    recvData cb (cbSize cb) len ⟨cbSize cb - rest.length, sum, chan⟩ =
      (unescape 2 len rest).toScan fun plain rest =>
        if ofBe (rest.take 2) = (plain.foldl (fun sum b => fletcherUpdate b sum) sum).toNat then
          .done (⟨CString.ofBytes chan, plain⟩, cbSize cb - rest.length + 2)
        else .fail := by
  have tail := drop_of_suffix suffix
  rw [contents_length] at tail
  unfold recvData
  rw [readEscaped_spec _ _ _ _ _ _ (by omega) (by simp only [tail]; omega)]
  simp only [tail, show min len (intLimit - 0) = len by omega, Nat.sub_self, Nat.add_zero, Nat.zero_add]
  cases read : unescape 2 len rest with
  | short | bad => rfl
  | ok plain rest' =>
      obtain ⟨-, enough', front', equal⟩ := unescape_ok read
      simp only [Unescaped.toScan, loopEnd]
      rw [if_neg (by omega)]
      have suffix' : contents cb = (front ++ front') ++ rest' := by rw [suffix, equal, List.append_assoc]
      exact recvChecksum_spec suffix' enough' _ _ _

theorem recvData_overflow {cb : CircBuffer} {front rest : List Byte} (suffix : contents cb = front ++ rest)
    {len : Nat} (enough : len + 2 ≤ rest.length) (large : intLimit ≤ len) (chan : List Byte)
    (sum : BitVec 16) :
    recvData cb (cbSize cb) len ⟨cbSize cb - rest.length, sum, chan⟩ =
      (unescape (2 + (len - intLimit)) intLimit rest).toScan fun _ _ => .overflow := by
  have tail := drop_of_suffix suffix
  rw [contents_length] at tail
  unfold recvData
  rw [readEscaped_spec _ _ _ _ _ _ (by decide) (by simp only [tail]; omega)]
  simp only [tail, show min len (intLimit - 0) = intLimit by omega, Nat.zero_add]
  cases unescape (2 + (len - intLimit)) intLimit rest with
  | short | bad => rfl
  | ok plain rest' => simp [Unescaped.toScan, loopEnd, Scan.bind]

theorem recvChannel_small {cb : CircBuffer} {header body : List Byte}
    (split : contents cb = header ++ body) (seven : header.length = 7) {chanLen : Byte} {len mtu : Nat}
    {b0 b1 : Byte} (ok : headerOk mtu b0 b1 chanLen len) (enough : chanLen.toNat + len + 2 ≤ body.length)
    (small : len < intLimit) :
    recvChannel cb (cbSize cb) chanLen.toNat len = (verdictOf mtu b0 b1 chanLen len body).toScan := by
  have size : cbSize cb = 7 + body.length := by
    rw [← contents_length, split, List.length_append, seven]
  have tail : (contents cb).drop 7 = body := by
    rw [split, ← seven, List.drop_left]
  have limit := intLimit_gt
  have chan := ok.2.2.1
  unfold recvChannel
  rw [readEscaped_spec _ _ _ _ _ _ (by omega) (by simp only [tail]; omega), verdictOf, if_pos ok, unescape_add]
  simp only [tail, show min chanLen.toNat (intLimit - 0) = chanLen.toNat by omega, Nat.sub_self, Nat.add_zero]
  cases read : unescape (len + 2) chanLen.toNat body with
  | short | bad => rfl
  | ok plain rest =>
      obtain ⟨length, enough', front, equal⟩ := unescape_ok read
      have suffix : contents cb = (header ++ front) ++ rest := by rw [split, equal, List.append_assoc]
      simp only [Unescaped.toScan, loopEnd, List.nil_append]
      rw [if_neg (by omega), Scan.bind, recvData_spec suffix enough' small]
      cases read' : unescape 2 len rest with
      | short | bad => rfl
      | ok plain' rest' =>
          obtain ⟨-, -, front', equal'⟩ := unescape_ok read'
          have count : cbSize cb - rest'.length + 2 = 7 + (body.length - rest'.length) + 2 := by
            have : rest'.length ≤ body.length := by simp [equal, equal']; omega
            omega
          simp only [Unescaped.prepend, Unescaped.toScan, checksum, List.foldl_append, count]
          rw [← length, List.take_left, List.drop_left]
          split <;> rfl

theorem recvChannel_large {cb : CircBuffer} {header body : List Byte}
    (split : contents cb = header ++ body) (seven : header.length = 7) {chanLen : Byte} {len mtu : Nat}
    {b0 b1 : Byte} (ok : headerOk mtu b0 b1 chanLen len) (enough : chanLen.toNat + len + 2 ≤ body.length)
    (large : intLimit ≤ len) :
    (overrunsOf mtu b0 b1 chanLen len body → recvChannel cb (cbSize cb) chanLen.toNat len = .overflow) ∧
    (¬ overrunsOf mtu b0 b1 chanLen len body →
      recvChannel cb (cbSize cb) chanLen.toNat len = (verdictOf mtu b0 b1 chanLen len body).toScan) := by
  have size : cbSize cb = 7 + body.length := by
    rw [← contents_length, split, List.length_append, seven]
  have tail : (contents cb).drop 7 = body := by
    rw [split, ← seven, List.drop_left]
  have limit := intLimit_gt
  have chan := ok.2.2.1
  unfold recvChannel overrunsOf
  rw [readEscaped_spec _ _ _ _ _ _ (by omega) (by simp only [tail]; omega), verdictOf, if_pos ok, unescape_add,
    unescape_add, show intLimit + (2 + (len - intLimit)) = len + 2 by omega]
  simp only [tail, show min chanLen.toNat (intLimit - 0) = chanLen.toNat by omega, Nat.sub_self, Nat.add_zero]
  cases read : unescape (len + 2) chanLen.toNat body with
  | short | bad => simp [Unescaped.toScan, Scan.bind, Verdict.toScan]
  | ok plain rest =>
      obtain ⟨length, enough', front, equal⟩ := unescape_ok read
      have suffix : contents cb = (header ++ front) ++ rest := by rw [split, equal, List.append_assoc]
      have parts := unescape_add 2 intLimit (len - intLimit) rest
      rw [Nat.add_sub_cancel' large, Nat.add_comm] at parts
      simp only [Unescaped.toScan, loopEnd, List.nil_append]
      rw [if_neg (by omega), Scan.bind, recvData_overflow suffix enough' large]
      cases read' : unescape (2 + (len - intLimit)) intLimit rest with
      | short | bad =>
          rw [read'] at parts
          simp [parts, Unescaped.prepend, Unescaped.toScan, Verdict.toScan]
      | ok plain' rest' => simp [Unescaped.prepend, Unescaped.toScan, ok, large]

theorem recvAttempt_spec {zt : GenericSerial} (long : frameBytes ≤ cbSize zt.recvBuffer) :
    (Overruns zt.mtu (contents zt.recvBuffer) → recvAttempt zt = .overflow) ∧
    (¬ Overruns zt.mtu (contents zt.recvBuffer) →
      recvAttempt zt = (verdict zt.mtu (contents zt.recvBuffer)).toScan) := by
  have seven : 7 ≤ (contents zt.recvBuffer).length := by
    rw [contents_length]
    exact Nat.le_trans (by decide) long
  obtain ⟨b0, b1, b2, b3, b4, b5, b6, body, bytes⟩ := exists_header seven
  have split : contents zt.recvBuffer = [b0, b1, b2, b3, b4, b5, b6] ++ body := bytes
  have size : cbSize zt.recvBuffer = 7 + body.length := by
    rw [← contents_length, split]
    simp
    omega
  have at0 := cbFront_of_drop (k := 0) bytes
  have at1 := cbFront_of_drop (k := 1) (by rw [bytes]; rfl)
  have at2 := cbFront_of_drop (k := 2) (by rw [bytes]; rfl)
  have at3 := cbFront_of_drop (k := 3) (by rw [bytes]; rfl)
  have at4 := cbFront_of_drop (k := 4) (by rw [bytes]; rfl)
  have at5 := cbFront_of_drop (k := 5) (by rw [bytes]; rfl)
  have at6 := cbFront_of_drop (k := 6) (by rw [bytes]; rfl)
  unfold recvAttempt
  simp only [at0, at1, at2, at3, at4, at5, at6, lengthField_toNat]
  rw [if_neg (by omega), bytes, Overruns, verdict]
  generalize ofBe [b3, b4, b5, b6] = len
  by_cases ok : headerOk zt.mtu b0 b1 b2 len
  · obtain ⟨rfl, rfl, chan, mtu⟩ := ok
    have ok : headerOk zt.mtu escapeChar 0x00 b2 len := ⟨rfl, rfl, chan, mtu⟩
    rw [if_neg (by simp), if_neg (by simp), if_neg (by omega), if_neg (by omega)]
    by_cases enough : b2.toNat + len + 2 ≤ body.length
    · rw [if_neg (by unfold frameBytes; omega)]
      by_cases small : len < intLimit
      · refine ⟨fun overrun => absurd overrun.2.1 (by omega), fun _ => ?_⟩
        exact recvChannel_small split rfl ok enough small
      · exact recvChannel_large split rfl ok enough (by omega)
    · rw [if_pos (by unfold frameBytes; omega)]
      constructor
      · rintro ⟨-, large, plain, rest, read⟩
        rw [unescape_short (by omega)] at read
        cases read
      · intro _
        rw [verdictOf, if_pos ok, unescape_short (by omega)]
        rfl
  · refine ⟨fun overrun => absurd overrun.1 ok, fun _ => ?_⟩
    rw [verdictOf, if_neg ok]
    by_cases h0 : b0 = escapeChar
    · by_cases h1 : b1 = 0x00
      · by_cases h2 : b2.toNat ≤ channelMaxlen
        · have h3 : len > zt.mtu := by
            by_contra within
            exact ok ⟨h0, h1, h2, by omega⟩
          rw [if_neg (by simp [h0]), if_neg (by simp [h1]), if_neg (by omega), if_pos h3]
          rfl
        · rw [if_neg (by simp [h0]), if_neg (by simp [h1]), if_pos (by omega)]
          rfl
      · rw [if_neg (by simp [h0]), if_pos h1]
        rfl
    · rw [if_pos h0]
      rfl

theorem overruns_frame {mtu : Nat} {m : Msg} (chan : m.channel.chars.length ≤ channelMaxlen)
    (len : m.buf.length ≤ mtu) (large : intLimit ≤ m.buf.length) (announced : m.buf.length < 2 ^ 32)
    (rest : List Byte) : Overruns mtu (frame m ++ rest) := by
  obtain ⟨b3, b4, b5, b6, digits, equal⟩ := frame_eq m
  have chanLen : (BitVec.ofNat 8 m.channel.chars.length).toNat = m.channel.chars.length := by
    rw [BitVec.toNat_ofNat]
    exact Nat.mod_eq_of_lt (by unfold channelMaxlen at chan; omega)
  have length : ofBe [b3, b4, b5, b6] = m.buf.length := by
    rw [← digits]
    exact ofBe_toBe_of_lt announced
  have front : (m.channel.chars ++ m.buf.take intLimit).length = m.channel.chars.length + intLimit := by
    rw [List.length_append, List.length_take, Nat.min_eq_left large]
  have split : m.channel.chars ++ m.buf = (m.channel.chars ++ m.buf.take intLimit) ++ m.buf.drop intLimit := by
    rw [List.append_assoc, List.take_append_drop]
  have behind := length_le_escape (m.buf.drop intLimit)
  rw [List.length_drop] at behind
  rw [equal]
  simp only [List.cons_append, Overruns, length]
  refine ⟨⟨rfl, rfl, by rw [chanLen]; exact chan, len⟩, large, m.channel.chars ++ m.buf.take intLimit,
    escape (m.buf.drop intLimit) ++ (toBe 2 (checksum (m.channel.chars ++ m.buf)).toNat ++ rest), ?_⟩
  rw [chanLen, ← front, split, escape_append, List.append_assoc, List.append_assoc]
  refine unescape_escape _ ?_
  simp only [List.length_append, toBe_length]
  omega

theorem serialRecvmsg_overflow {zt : GenericSerial} (overrun : Overruns zt.mtu (contents zt.recvBuffer))
    (long : frameBytes ≤ cbSize zt.recvBuffer) (time : Nat → Nat) (fuel : Nat) :
    serialRecvmsg time (fuel + 1) zt = some (.overflow, zt) := by
  rw [serialRecvmsg, (recvAttempt_spec long).1 overrun]

end Zcm.Serial
