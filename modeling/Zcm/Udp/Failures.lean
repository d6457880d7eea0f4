import Zcm.Udp.Limits

namespace Zcm.Udp
open Zcm.Lib

def payloadOf (pkt : List Byte) : List Byte :=
  pkt.drop (if ofBe (pkt.take 4) = magicShort then sizeofMsgHeaderShort else sizeofMsgHeaderLong)

/-- The packets of the message: those that go out if the socket takes them all. -/
def packets (platform : Platform) (msgSeqno : Nat) (channel : CString) (data : List Byte) : List (List Byte) :=
  (sendmsg platform transmits msgSeqno channel data).datagrams

def AllTaken (status : Nat → List Byte → Int) (pkts : List (List Byte)) : Prop :=
  ∀ k pkt, pkts[k]? = some pkt → status k pkt = pkt.length

-- The socket takes nothing of a packet that is not the last one, after it took all those before it.
def TakesNothing (status : Nat → List Byte → Int) : Nat → List (List Byte) → Prop
  | k, pkt :: next :: pkts =>
      status k pkt = 0 ∨ status k pkt = pkt.length ∧ TakesNothing status (k + 1) (next :: pkts)
  | _, _ => False

/-- If `sendmsg` returns 0, the packets of the message were sent, and in full, and they carry all of it. -/
def ReportsFailures (platform : Platform) (status : Nat → List Byte → Int) (msgSeqno : Nat) (channel : CString)
    (data : List Byte) : Prop :=
  let sending := sendmsg platform status msgSeqno channel data
  sending.result = some 0 → sending.datagrams = packets platform msgSeqno channel data ∧
    AllTaken status sending.datagrams ∧ (sending.datagrams.map payloadOf).flatten = channel.chars ++ [0] ++ data

variable {platform : Platform} {status : Nat → List Byte → Int} {msgSeqno : Nat} {channel : CString}
  {data : List Byte}

theorem allTaken_singleton {pkt : List Byte} : AllTaken status [pkt] ↔ status 0 pkt = pkt.length := by
  constructor
  · exact fun taken => taken 0 pkt rfl
  · intro taken k pkt' there
    cases k with
    | zero =>
        cases there
        exact taken
    | succ k => cases there

theorem payloadOf_short (rest : List Byte) : payloadOf (msgHeaderShort msgSeqno ++ rest) = rest := by
  have magic : ofBe ((msgHeaderShort msgSeqno ++ rest).take 4) = magicShort := by
    rw [msgHeaderShort, List.append_assoc, List.take_left' (toBe_length 4 _)]
    exact ofBe_toBe_of_lt (by decide)
  rw [payloadOf, if_pos magic]
  exact List.drop_left' (by simp [msgHeaderShort, sizeofMsgHeaderShort])

theorem payloadOf_long {msgSize fragmentOffset fragmentNo fragmentsInMsg : Nat} (rest : List Byte) :
    payloadOf (msgHeaderLong msgSeqno msgSize fragmentOffset fragmentNo fragmentsInMsg ++ rest) = rest := by
  have magic : ofBe ((msgHeaderLong msgSeqno msgSize fragmentOffset fragmentNo fragmentsInMsg ++ rest).take 4) =
      magicLong := by
    rw [msgHeaderLong]
    simp only [List.append_assoc]
    rw [List.take_left' (toBe_length 4 _)]
    exact ofBe_toBe_of_lt (by decide)
  rw [payloadOf, magic, if_neg (by decide)]
  exact List.drop_left' (by simp [msgHeaderLong, sizeofMsgHeaderLong])

section Rest

variable {header : Nat → Nat → List Byte} {fragmentSize : Nat}

theorem sendRest_of_taken {rounds k fragmentOffset size : Nat} {pkt : List Byte} (first : status k pkt = pkt.length)
    (taken : ∀ j pkt, (sendRest transmits header data fragmentSize rounds (k + 1) fragmentOffset size
      size).datagrams[j]? = some pkt → status (k + 1 + j) pkt = pkt.length) :
    (sendRest status header data fragmentSize rounds (k + 1) fragmentOffset pkt.length (status k pkt)).datagrams =
      (sendRest transmits header data fragmentSize rounds (k + 1) fragmentOffset size size).datagrams := by
  induction rounds generalizing k fragmentOffset size pkt with
  | zero => rfl
  | succ rounds ih =>
      simp only [sendRest, transmits, if_true] at taken ⊢
      rw [if_pos first]
      refine congrArg _ (ih (taken 0 _ rfl) fun j pkt there => ?_)
      have later := taken (j + 1) pkt there
      rwa [← Nat.add_assoc, Nat.add_right_comm] at later

/-- The loop ends short of the data with a status of 0 if the socket takes nothing of a packet before the last. -/
theorem sendRest_fails_iff (k size : Nat) {rounds fragmentOffset : Nat} {pkt : List Byte} (nonempty : 0 < pkt.length)
    (enough : data.length ≤ fragmentOffset + rounds * fragmentSize)
    (needed : if rounds = 0 then fragmentOffset = data.length
      else fragmentOffset + (rounds - 1) * fragmentSize < data.length)
    (headed : ∀ offset no, 0 < (header offset no).length) :
    let sent := sendRest status header data fragmentSize rounds (k + 1) fragmentOffset pkt.length (status k pkt)
    (sent.status = 0 ∧ sent.fragmentOffset ≠ data.length) ↔ TakesNothing status k
      (pkt :: (sendRest transmits header data fragmentSize rounds (k + 1) fragmentOffset size size).datagrams) := by
  induction rounds generalizing k fragmentOffset size pkt with
  | zero =>
      rw [if_pos rfl] at needed
      simp [sendRest, TakesNothing, needed]
  | succ rounds ih =>
      rw [if_neg rounds.succ_ne_zero, Nat.add_sub_cancel] at needed
      simp only [sendRest, transmits, if_true, TakesNothing]
      by_cases taken : status k pkt = pkt.length
      · have something : ¬ (pkt.length : Int) = 0 := by omega
        simp only [taken, if_true, something, true_and, false_or]
        refine ih (k + 1) _ (by rw [List.length_append]; have := headed fragmentOffset (k + 1); omega) ?_ ?_
        · rw [Nat.succ_mul] at enough
          omega
        · split
          · next none =>
              subst none
              omega
          · next some =>
              obtain ⟨rest, rfl⟩ := Nat.exists_eq_succ_of_ne_zero some
              rw [Nat.succ_mul] at needed
              rw [Nat.succ_sub_one]
              omega
      · simp only [taken, if_false, false_and, or_false, and_iff_left_iff_imp]
        omega

theorem sendRest_payload (carries : ∀ offset no rest, payloadOf (header offset no ++ rest) = rest)
    (rounds fragNo fragmentOffset size : Nat) :
    ((sendRest transmits header data fragmentSize rounds fragNo fragmentOffset size size).datagrams.map
      payloadOf).flatten = (data.drop fragmentOffset).take (rounds * fragmentSize) := by
  induction rounds generalizing fragNo fragmentOffset size with
  | zero => simp [sendRest]
  | succ rounds ih =>
      simp only [sendRest, transmits, if_true, List.map_cons, List.flatten_cons, carries, ih]
      rcases Nat.le_total fragmentSize (data.length - fragmentOffset) with whole | last
      · rw [Nat.min_eq_left whole, Nat.succ_mul, Nat.add_comm (rounds * fragmentSize) fragmentSize, List.take_add,
          List.drop_drop]
      · have room : (data.drop fragmentOffset).length ≤ (rounds + 1) * fragmentSize := by
          rw [List.length_drop, Nat.succ_mul]
          omega
        have gone : data.drop (fragmentOffset + (data.length - fragmentOffset)) = [] :=
          List.drop_eq_nil_of_le (by omega)
        rw [Nat.min_eq_right last, List.take_of_length_le room, List.take_of_length_le (by simp), gone, List.take_nil,
          List.append_nil]

end Rest

section Short

variable (channelFits : channel.chars.length ≤ channelMaxlen)
  (short : channel.chars.length + 1 + data.length ≤ platform.shortMessageMaxSize)

include channelFits short

theorem sendmsg_short : sendmsg platform status msgSeqno channel data =
    let pkt := msgHeaderShort msgSeqno ++ (channel.chars ++ [0]) ++ data
    ⟨some (if status 0 pkt = pkt.length then 0 else status 0 pkt), [pkt], (msgSeqno + 1) % 2 ^ 32⟩ := by
  simp only [sendmsg, if_neg (Nat.not_lt.mpr channelFits), if_pos short]

theorem reportsFailures_short : ReportsFailures platform status msgSeqno channel data ↔
    ∀ pkt ∈ packets platform msgSeqno channel data, status 0 pkt ≠ 0 := by
  have sent := @sendmsg_short platform status msgSeqno channel data channelFits short
  have whole := @sendmsg_short platform transmits msgSeqno channel data channelFits short
  have carried : ([msgHeaderShort msgSeqno ++ (channel.chars ++ [0]) ++ data].map payloadOf).flatten =
      channel.chars ++ [0] ++ data := by
    rw [List.map_singleton, List.flatten_singleton, List.append_assoc, payloadOf_short]
  rw [ReportsFailures, packets, sent, whole]
  simp only [List.forall_mem_singleton, allTaken_singleton, Option.some.injEq]
  have nonempty : 0 < (msgHeaderShort msgSeqno ++ (channel.chars ++ [0]) ++ data).length := by simp
  generalize msgHeaderShort msgSeqno ++ (channel.chars ++ [0]) ++ data = pkt at carried nonempty ⊢
  constructor
  · intro reports nothing
    have taken := (reports (by rw [nothing, ite_self])).2.1
    omega
  · intro something success
    refine ⟨trivial, ?_, carried⟩
    by_contra less
    rw [if_neg less] at success
    exact something success

end Short

section Long

variable (channelFits : channel.chars.length ≤ channelMaxlen)
  (long : platform.shortMessageMaxSize < channel.chars.length + 1 + data.length)

include channelFits long

theorem sendmsg_long (few : nfragments (channel.chars.length + 1 + data.length) platform.fragmentMaxPayload ≤ 65535) :
    let total := nfragments (channel.chars.length + 1 + data.length) platform.fragmentMaxPayload
    let header fragmentOffset fragmentNo := msgHeaderLong msgSeqno data.length fragmentOffset fragmentNo total
    let firstfragDatasize := platform.fragmentMaxPayload - (channel.chars.length + 1)
    let pkt := header 0 0 ++ (channel.chars ++ [0]) ++ data.take firstfragDatasize
    let rest := sendRest status header data platform.fragmentMaxPayload (total - 1) 1 firstfragDatasize pkt.length
      (status 0 pkt)
    sendmsg platform status msgSeqno channel data =
      ⟨if rest.status = 0 ∧ rest.fragmentOffset ≠ data.length then none else some 0, pkt :: rest.datagrams,
        (msgSeqno + 1) % 2 ^ 32⟩ := by
  simp only [sendmsg, if_neg (Nat.not_lt.mpr channelFits), if_neg (Nat.not_le.mpr long), if_neg (Nat.not_lt.mpr few)]

theorem sendmsg_long_result
    (few : nfragments (channel.chars.length + 1 + data.length) platform.fragmentMaxPayload ≤ 65535) :
    (sendmsg platform status msgSeqno channel data).result = some 0 ↔
      ¬ TakesNothing status 0 (packets platform msgSeqno channel data) := by
  have fragment : channel.chars.length + 1 < platform.fragmentMaxPayload ∧
      platform.fragmentMaxPayload < channel.chars.length + 1 + data.length := by
    cases platform <;>
      simp only [Platform.fragmentMaxPayload, Platform.shortMessageMaxSize, channelMaxlen] at * <;> omega
  have bounds := Sent.nfragments_bounds (channel.chars.length + 1 + data.length)
    (show 0 < platform.fragmentMaxPayload by omega)
  rw [packets, @sendmsg_long platform status msgSeqno channel data channelFits long few,
    @sendmsg_long platform transmits msgSeqno channel data channelFits long few]
  generalize nfragments (channel.chars.length + 1 + data.length) platform.fragmentMaxPayload = total at bounds
  have more : 1 < total := by
    by_contra few
    have : total = 0 ∨ total = 1 := by omega
    rcases this with rfl | rfl <;> omega
  have enough : data.length ≤ platform.fragmentMaxPayload - (channel.chars.length + 1) +
      (total - 1) * platform.fragmentMaxPayload := by
    rw [Nat.sub_mul, Nat.one_mul]
    omega
  have needed : platform.fragmentMaxPayload - (channel.chars.length + 1) +
      (total - 1 - 1) * platform.fragmentMaxPayload < data.length := by
    obtain ⟨rest, rfl⟩ := Nat.exists_eq_add_of_le (show 2 ≤ total from more)
    rw [Nat.add_mul] at bounds
    rw [show 2 + rest - 1 - 1 = rest by omega]
    omega
  have nonempty : 0 < (msgHeaderLong msgSeqno data.length 0 0 total ++ (channel.chars ++ [0]) ++
      data.take (platform.fragmentMaxPayload - (channel.chars.length + 1))).length := by simp
  have fails size := @sendRest_fails_iff status data _ platform.fragmentMaxPayload 0 size _ _ _ nonempty enough
    (by rw [if_neg (by omega)]; exact needed)
    (show ∀ offset no, 0 < (msgHeaderLong msgSeqno data.length offset no total).length by simp [msgHeaderLong])
  refine Iff.trans ?_ (not_congr (fails _))
  split <;> simp_all

/-- If all its fragments are taken, the message is sent. Otherwise that is not reported, unless the assertion at the end
fails. -/
theorem reportsFailures_long
    (few : nfragments (channel.chars.length + 1 + data.length) platform.fragmentMaxPayload ≤ 65535) :
    ReportsFailures platform status msgSeqno channel data ↔
      AllTaken status (packets platform msgSeqno channel data) ∨
        TakesNothing status 0 (packets platform msgSeqno channel data) := by
  have success := @sendmsg_long_result platform status msgSeqno channel data channelFits long few
  rw [ReportsFailures, success]
  by_cases aborts : TakesNothing status 0 (packets platform msgSeqno channel data)
  · exact iff_of_true (fun returns => absurd aborts returns) (.inr aborts)
  rw [or_iff_left aborts]
  constructor
  · intro reports
    obtain ⟨same, taken, -⟩ := reports aborts
    rwa [same] at taken
  · intro taken _
    have sent := @sendmsg_long platform status msgSeqno channel data channelFits long few
    have whole : packets platform msgSeqno channel data = _ :=
      congrArg Sending.datagrams (@sendmsg_long platform transmits msgSeqno channel data channelFits long few)
    have bounds := (Sent.nfragments_bounds (channel.chars.length + 1 + data.length)
      (show 0 < platform.fragmentMaxPayload by cases platform <;> decide)).1
    have each := taken
    rw [whole] at each
    have first := each 0 _ rfl
    have rest := sendRest_of_taken first fun j pkt there => (Nat.add_comm j 1) ▸ each (j + 1) pkt there
    have same : (sendmsg platform status msgSeqno channel data).datagrams = packets platform msgSeqno channel data := by
      rw [whole, sent]
      exact congrArg (_ :: ·) rest
    refine ⟨same, same ▸ taken, ?_⟩
    have room : (data.drop (platform.fragmentMaxPayload - (channel.chars.length + 1))).length ≤
        (nfragments (channel.chars.length + 1 + data.length) platform.fragmentMaxPayload - 1) *
          platform.fragmentMaxPayload := by
      rw [List.length_drop, Nat.sub_mul, Nat.one_mul]
      omega
    rw [same, whole]
    simp only [List.map_cons, List.flatten_cons, transmits, sendRest_payload fun _ _ => payloadOf_long,
      List.append_assoc, payloadOf_long, List.take_of_length_le room, List.take_append_drop]

end Long

/-- `sendmsg` reports the failures of the socket if it refuses the message, if it sends one packet and the socket
takes at least a part of it or fails, if there are none, or if it does not return. -/
theorem reportsFailures_iff (data_le : data.length ≤ mtu) : ReportsFailures platform status msgSeqno channel data ↔
    channelMaxlen < channel.chars.length ∨
      (if channel.chars.length + 1 + data.length ≤ platform.shortMessageMaxSize then
        ∀ pkt ∈ packets platform msgSeqno channel data, status 0 pkt ≠ 0
      else
        platform = .apple ∧
          65535 < nfragments (channel.chars.length + 1 + data.length) platform.fragmentMaxPayload ∨
        AllTaken status (packets platform msgSeqno channel data) ∨
        TakesNothing status 0 (packets platform msgSeqno channel data)) := by
  rcases Nat.lt_or_ge channelMaxlen channel.chars.length with tooLong | channelFits
  · refine iff_of_true (fun success => ?_) (.inl tooLong)
    simp [sendmsg, if_pos tooLong] at success
  have fits : ¬ channelMaxlen < channel.chars.length := Nat.not_lt.mpr channelFits
  rcases Nat.lt_or_ge platform.shortMessageMaxSize (channel.chars.length + 1 + data.length) with long | short
  · rw [if_neg (Nat.not_le.mpr long)]
    rcases Nat.lt_or_ge 65535
      (nfragments (channel.chars.length + 1 + data.length) platform.fragmentMaxPayload) with many | few
    · have isApple : platform = .apple := by
        cases platform with
        | apple => rfl
        | other =>
            have few := @Sent.total_other_le_of_data ⟨⟨0, 0, 0⟩, msgSeqno, channel, data⟩ channelFits data_le
            exact absurd many (Nat.not_lt.mpr few)
      refine iff_of_true (fun success => ?_) (.inr (.inl ⟨isApple, many⟩))
      simp [sendmsg, fits, Nat.not_le.mpr long, many] at success
    · rw [reportsFailures_long channelFits long few]
      simp [fits, Nat.not_lt.mpr few]
  · rw [if_pos short, reportsFailures_short channelFits short]
    simp [fits]

theorem packets_sample (length : data.length = 65500) :
    ∃ first last, packets .other 7 ⟨[65], by decide⟩ data = [first, last] := by
  have fragments : nfragments ([(65 : Byte)].length + 1 + data.length) Platform.other.fragmentMaxPayload = 2 := by
    rw [length]
    decide
  have long : Platform.other.shortMessageMaxSize < [(65 : Byte)].length + 1 + data.length := by
    rw [length]
    decide
  have whole := @sendmsg_long .other transmits 7 ⟨[65], by decide⟩ data (by decide) long (by rw [fragments]; decide)
  rw [packets, whole, fragments]
  simp only [sendRest, transmits, if_true]
  exact ⟨_, _, rfl⟩

def takesNothing (_ : Nat) (_ : List Byte) : Int := 0

/-- The socket takes nothing of the first of two fragments, and the assertion at the end fails. -/
theorem takesNothing_reported :
    ReportsFailures .other takesNothing 7 ⟨[65], by decide⟩ (List.replicate 65500 1) := by
  obtain ⟨data, isData, length⟩ : ∃ data : List Byte, data = List.replicate 65500 1 ∧ data.length = 65500 :=
    ⟨_, rfl, List.length_replicate⟩
  rw [← isData]
  obtain ⟨first, last, both⟩ := packets_sample length
  have few : data.length ≤ mtu := by
    rw [length]
    decide
  have long : ¬ [(65 : Byte)].length + 1 + data.length ≤ Platform.other.shortMessageMaxSize := by
    rw [length]
    decide
  refine (reportsFailures_iff few).mpr (.inr ?_)
  rw [if_neg long, both]
  exact .inr (.inr (.inl rfl))

def refuses (_ : Nat) (_ : List Byte) : Int := -1

/-- The socket refuses the first of two fragments, and `sendmsg` returns 0. -/
theorem refused_unreported : ¬ ReportsFailures .other refuses 7 ⟨[65], by decide⟩ (List.replicate 65500 1) := by
  obtain ⟨data, isData, length⟩ : ∃ data : List Byte, data = List.replicate 65500 1 ∧ data.length = 65500 :=
    ⟨_, rfl, List.length_replicate⟩
  rw [← isData]
  obtain ⟨first, last, both⟩ := packets_sample length
  have few : nfragments ([(65 : Byte)].length + 1 + data.length) Platform.other.fragmentMaxPayload ≤ 65535 := by
    rw [length]
    decide
  have long : Platform.other.shortMessageMaxSize < [(65 : Byte)].length + 1 + data.length := by
    rw [length]
    decide
  rw [reportsFailures_long (by decide) long few, both]
  rintro (taken | nothing | ⟨taken, -⟩)
  · have := taken 0 first rfl
    simp only [refuses] at this
    omega
  · simp only [refuses] at nothing
    omega
  · simp only [refuses] at taken
    omega

end Zcm.Udp
