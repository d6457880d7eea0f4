import Mathlib.Data.List.Perm.Basic
import Mathlib.Logic.Function.Basic
import Zcm.Lib.Bytes

/-!
# The local ZMQ transport

One thread calls `recvmsg`, others call `recvmsgEnable` and `sendmsg`. A step is a whole call of these, or
what `recvmsg` does up to the next time that it takes the mutex, polls or receives. What ZMQ, the clock and
the file system answer is given with the step, and so is the order in which a step goes through the map.
-/

namespace Zcm.Zmq
open Zcm.Lib

def mtu : Nat := 2 ^ 28

def channelMaxlen : Nat := 32

def startBufSize : Nat := 2 ^ 20

abbrev Socket := Nat

inductive Kind
  | ipc | inproc
deriving DecidableEq

structure Options where
  kind : Kind
  rescanPeriodUs : BitVec 64

inductive Ret
  | eok | einvalid | econnect | eunknown
deriving DecidableEq

structure Subsock where
  channel : CString
  socket : Socket
  isExplicit : Bool
deriving DecidableEq

structure Pollitem where
  socket : Socket
  revents : Bool
deriving DecidableEq

structure Msg where
  utime : BitVec 64
  channel : CString
  buf : List Byte
deriving DecidableEq

inductive Pc
  | idle (last : Option Msg) -- `none` is `ZCM_EAGAIN`
  | handling (leftover : Bool) (i : Nat)
  | building
  | polling
deriving DecidableEq

/-- The transport with its open sockets, and the subscriptions that are in force. -/
structure State where
  pubsocks : List CString
  subsocks : List Subsock
  regexChannels : List CString
  lastScanUtime : BitVec 64
  recvmsgBufferSize : Nat
  pitems : List Pollitem
  pchannels : List CString
  pc : Pc
  opened : List Socket
  nextSocket : Socket
  subscribed : CString → Bool

inductive Creation
  | noSocket
  | unusable -- it is not set up or connected, and stays open
  | ok
deriving DecidableEq

inductive Deletion
  | disconnectFails | closeFails | ok
deriving DecidableEq

structure Answer where
  now : BitVec 64
  received : Option (List Byte)
  listing : List CString
  creates : CString → Creation
  order : List Subsock
  polls : Bool
  revents : Socket → Bool

inductive Action
  | sendmsg (channel : CString) (buf : List Byte) (created sends : Bool)
  | recvmsgEnable (channel : CString) (enable : Bool) (creates : Creation) (deletes : Socket → Deletion)
      (order : List Subsock)
  | recvmsg (answer : Answer)

def isRegexChar (c : Byte) : Bool :=
  c = 0x28 || c = 0x29 || c = 0x7c || c = 0x2e || c = 0x2a || c = 0x2b

def isRegexChannel (channel : CString) : Bool := channel.chars.any isRegexChar

section Program

variable (options : Options) (regexMatch : CString → CString → Bool) (regexValid : CString → Bool)

namespace State

def start : State where
  pubsocks := []
  subsocks := []
  regexChannels := []
  lastScanUtime := 0
  recvmsgBufferSize := startBufSize
  pitems := []
  pchannels := []
  pc := .idle none
  opened := []
  nextSocket := 0
  subscribed _ := false

def isRegexSubscribed (channel : CString) (s : State) : Bool := s.regexChannels.any (regexMatch channel)

section Sockets

def pubsockFindOrCreate (channel : CString) (created : Bool) (s : State) : Bool × State :=
  if channel ∈ s.pubsocks then (true, s)
  else if created then (true, { s with pubsocks := s.pubsocks ++ [channel] })
  else (false, s)

def subsockFindOrCreate (creation : Creation) (channel : CString) (subExplicit : Bool) (s : State) : Bool × State :=
  if s.subsocks.any (·.channel = channel) then
    (true, { s with
      subsocks := s.subsocks.map fun e => if e.channel =
        channel then { e with isExplicit := e.isExplicit || subExplicit } else e })
  else
    match creation with
    | .noSocket => (false, s)
    | .unusable => (false, { s with opened := s.nextSocket :: s.opened, nextSocket := s.nextSocket + 1 })
    | .ok =>
        (true, { s with
          opened := s.nextSocket :: s.opened
          nextSocket := s.nextSocket + 1
          subsocks := ⟨channel, s.nextSocket, subExplicit⟩ :: s.subsocks })

def subsockDelete (deletion : Deletion) (e : Subsock) (s : State) : Ret × State :=
  match deletion with
  | .disconnectFails => (.econnect, s)
  | .closeFails => (.econnect, s)
  | .ok =>
      (.eok, { s with
        opened := s.opened.filter (· ≠ e.socket)
        subsocks := s.subsocks.filter (·.channel ≠ e.channel) })

end Sockets

section Scan

def scan (creates : CString → Creation) : List CString → State → State
  | [], s => s
  | channel :: channels, s =>
      if s.isRegexSubscribed regexMatch channel then
        scan creates channels (s.subsockFindOrCreate (creates channel) channel false).2
      else scan creates channels s

def ipcScanForNewChannels (creates : CString → Creation) (listing : List CString) (s : State) : State :=
  s.scan regexMatch creates listing

def inprocScanForNewChannels (creates : CString → Creation) (s : State) : State :=
  s.scan regexMatch creates s.pubsocks

def scanForNewChannels (a : Answer) (s : State) : State :=
  if s.regexChannels ≠ [] ∧ a.now > s.lastScanUtime + options.rescanPeriodUs then
    let s := { s with lastScanUtime := a.now }
    match options.kind with
    | .ipc => (s.ipcScanForNewChannels regexMatch a.creates a.listing).inprocScanForNewChannels regexMatch a.creates
    | .inproc => s.inprocScanForNewChannels regexMatch a.creates
  else s

end Scan

section Calls

def sendmsg (channel : CString) (buf : List Byte) (created sends : Bool) (s : State) : Ret × State :=
  if channel.chars.length > channelMaxlen then (.einvalid, s)
  else if buf.length > mtu then (.einvalid, s)
  else
    let (found, s) := s.pubsockFindOrCreate channel created
    (if found then if sends then .eok else .eunknown else .econnect, s)

def deleteUnmatched (deletes : Socket → Deletion) : List Subsock → State → Ret × State
  | [], s => (.eok, s)
  | e :: es, s =>
      if e.isExplicit then deleteUnmatched deletes es s
      else if s.isRegexSubscribed regexMatch e.channel then deleteUnmatched deletes es s
      else
        match s.subsockDelete (deletes e.socket) e with
        | (.eok, s) => deleteUnmatched deletes es s
        | (ret, s) => (ret, s)

def recvmsgEnable (channel : CString) (enable : Bool) (creates : Creation) (deletes : Socket → Deletion)
    (order : List Subsock)
    (s : State) : Option (Ret × State) :=
  let s := { s with subscribed := Function.update s.subscribed channel enable }
  if isRegexChannel channel then
    if enable then
      if regexValid channel then some (.eok, { s with regexChannels := s.regexChannels.insert channel }) else none
    else
      let s := { s with regexChannels := s.regexChannels.filter (· ≠ channel) }
      if order.isPerm s.subsocks then some (s.deleteUnmatched regexMatch deletes order) else none
  else if enable then
    let (found, s) := s.subsockFindOrCreate creates channel true
    some (if found then .eok else .econnect, s)
  else
    match s.subsocks.find? (·.channel = channel) with
    | none => some (.einvalid, s)
    | some e =>
        let s := { s with
          subsocks := s.subsocks.map fun e => if e.channel = channel then { e with isExplicit := false } else e }
        if s.isRegexSubscribed regexMatch channel then some (.eok, s) else some (s.subsockDelete (deletes e.socket) e)

end Calls

section Receive

def handlePitem (a : Answer) (leftover : Bool) (i : Nat) (s : State) : Option State :=
  match s.pitems[i]? with
  | none =>
      some (if leftover then { s with pitems := [], pchannels := [], pc := .building } else { s with pc := .idle none })
  | some p =>
      if !p.revents then some { s with pc := .handling leftover (i + 1) }
      else
        let s := { s with pitems := s.pitems.set i { p with revents := false } }
        match a.received with
        | none => some { s with pc := .handling leftover (i + 1) }
        | some buf =>
            if buf.length ≥ mtu then none -- the assertion
            else if buf.length > s.recvmsgBufferSize then
              some { s with recvmsgBufferSize := buf.length * 2, pc := .handling leftover (i + 1) }
            else some { s with pc := .idle ((s.pchannels[i]?).map fun channel => ⟨a.now, channel, buf⟩) }

def buildPitems (a : Answer) (s : State) : Option State :=
  let s := s.scanForNewChannels options regexMatch a
  if a.order.isPerm s.subsocks then
    some { s with
      pitems := a.order.map fun e => ⟨e.socket, false⟩
      pchannels := a.order.map (·.channel)
      pc := .polling }
  else none

def poll (a : Answer) (s : State) : State :=
  { s with
    pitems := s.pitems.map fun p => { p with revents := a.revents p.socket }
    pc := if a.polls then .handling false 0 else .idle none }

def recvmsg (a : Answer) (s : State) : Option State :=
  match s.pc with
  | .idle _ => some { s with pc := .handling true 0 }
  | .handling leftover i => s.handlePitem a leftover i
  | .building => s.buildPitems options regexMatch a
  | .polling => some (s.poll a)

end Receive

def next (s : State) : Action → Option State
  | .sendmsg channel buf created sends => some (s.sendmsg channel buf created sends).2
  | .recvmsgEnable channel enable creates deletes order =>
      (s.recvmsgEnable regexMatch regexValid channel enable creates deletes order).map Prod.snd
  | .recvmsg a => s.recvmsg options regexMatch a

end State

end Program

end Zcm.Zmq
