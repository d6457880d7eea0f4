import Zcm.Logger.Frames

namespace Zcm.Logplayer
open Zcm.Lib Zcm.Eventlog Zcm.Logger

abbrev Channel := List Byte

section Json

structure Number where
  text : List Byte
  nonzero : Bool
  uint64 : Option (BitVec 64)

inductive Json
  | null
  | bool (b : Bool)
  | number (n : Number)
  | string (s : List Byte)
  | array (values : List Json)
  | object (members : List (List Byte × Json))

namespace Json

def asString : Json → Option (List Byte)
  | null => some []
  | bool b => some (if b then ascii ['t', 'r', 'u', 'e'] else ascii ['f', 'a', 'l', 's', 'e'])
  | number n => some n.text
  | string s => some s
  | array _ | object _ => none

def asBool : Json → Option Bool
  | null => some false
  | bool b => some b
  | number n => some n.nonzero
  | string _ | array _ | object _ => none

def asUInt64 : Json → Option (BitVec 64)
  | null => some 0
  | bool b => some (if b then 1 else 0)
  | number n => n.uint64
  | string _ | array _ | object _ => none

def members : Json → Option (List (List Byte × Json))
  | null => some []
  | object members => some members
  | bool _ | number _ | string _ | array _ => none

def isMember (key : List Byte) (j : Json) : Option Bool := j.members.map fun ms => (ms.lookup key).isSome

def get (key : List Byte) (j : Json) : Option Json := j.members.map fun ms => (ms.lookup key).getD null

def getMemberNames (j : Json) : Option (List (List Byte)) := j.members.map (·.map Prod.fst)

def isString (s : List Byte) : Json → Bool
  | string s' => s' = s
  | null | bool _ | number _ | array _ | object _ => false

end Json

end Json

section Init

inductive StartMode
  | channel (startChan : Channel)
  | usDelay (startDelayUs : BitVec 64)

inductive FilterMode
  | whitelist | blacklist | specified
deriving DecidableEq

structure ChannelDetails where
  enabled : Bool
  replayChannel : Channel

abbrev ChannelMap := Channel → Option ChannelDetails

def ChannelMap.details (m : ChannelMap) (c : Channel) : ChannelDetails := (m c).getD ⟨false, []⟩

def ChannelMap.setEnabled (m : ChannelMap) (c : Channel) (enabled : Bool) : ChannelMap :=
  Function.update m c (some { m.details c with enabled := enabled })

def ChannelMap.setReplayChannel (m : ChannelMap) (c replayChannel : Channel) : ChannelMap :=
  Function.update m c (some { m.details c with replayChannel := replayChannel })

structure LogPlayer where
  startMode : Option StartMode
  filterMode : Option FilterMode
  channelMap : ChannelMap

inductive Failure
  | refused (message : String)
  | aborts

def asserted {α : Type} : Option α → Except Failure α
  | some a => .ok a
  | none => .error .aborts

def refuseIf (b : Bool) (message : String) : Except Failure Unit := if b then .error (.refused message) else .ok ()

def start : List Byte := ascii ['S', 'T', 'A', 'R', 'T']
def filter : List Byte := ascii ['F', 'I', 'L', 'T', 'E', 'R']
def renameKey : List Byte := ascii ['R', 'E', 'N', 'A', 'M', 'E']
def mode : List Byte := ascii ['m', 'o', 'd', 'e']
def type : List Byte := ascii ['t', 'y', 'p', 'e']
def channelKey : List Byte := ascii ['c', 'h', 'a', 'n', 'n', 'e', 'l']
def channels : List Byte := ascii ['c', 'h', 'a', 'n', 'n', 'e', 'l', 's']
def usDelay : List Byte := ascii ['u', 's', '_', 'd', 'e', 'l', 'a', 'y']

def initStart (root : Json) : Except Failure (Option StartMode) := do
  if !(← asserted (root.isMember start)) then return none
  let section' ← asserted (root.get start)
  -- this makes the member "mode", so that it is not missed below
  let startModeStr ← asserted ((← asserted (section'.get mode)).asString)
  if startModeStr = channelKey then
    refuseIf (!(← asserted (section'.isMember channelKey))) "Start channel unspecified in jslp"
    return some (.channel (← asserted ((← asserted (section'.get channelKey)).asString)))
  else if startModeStr = usDelay then
    refuseIf (!(← asserted (section'.isMember usDelay))) "Start us_delay unspecified in jslp"
    return some (.usDelay (← asserted ((← asserted (section'.get usDelay)).asUInt64)))
  else throw (.refused "Start mode unrecognized in jslp: ")

def filterModeOf (j : Json) : Except Failure FilterMode :=
  if j.isString (ascii ['w', 'h', 'i', 't', 'e', 'l', 'i', 's', 't']) then .ok .whitelist
  else if j.isString (ascii ['b', 'l', 'a', 'c', 'k', 'l', 'i', 's', 't']) then .ok .blacklist
  else if j.isString (ascii ['s', 'p', 'e', 'c', 'i', 'f', 'i', 'e', 'd']) then .ok .specified
  else .error (.refused "Filter \"type\" unrecognized: ")

def filterNames : Json → Option (List Channel)
  | .array values => values.mapM Json.asString
  | j => j.getMemberNames

def newChannel (filterMode : FilterMode) (entries : Json) (m : ChannelMap) (c : Channel) :
    Except Failure ChannelMap := do
  if filterMode = .specified then return m.setEnabled c (← asserted ((← asserted (entries.get c)).asBool))
  else return m.setEnabled c true

def initFilter (root : Json) : Except Failure (Option FilterMode × ChannelMap) := do
  if !(← asserted (root.isMember filter)) then return (none, fun _ => none)
  let section' ← asserted (root.get filter)
  refuseIf (!(← asserted (section'.isMember type))) "Filter \"type\" in jslp file unspecified"
  refuseIf (!(← asserted (section'.isMember mode))) "Filter \"mode\" in jslp file unspecified"
  refuseIf (!(← asserted (section'.get type)).isString channels) "Filter \"mode\" unrecognized: "
  let filterMode ← filterModeOf (← asserted (section'.get mode))
  let entries ← asserted (section'.get channels)
  let names ← asserted (filterNames entries)
  return (some filterMode, ← names.foldlM (newChannel filterMode entries) fun _ => none)

def initRename (root : Json) (m : ChannelMap) : Except Failure ChannelMap := do
  if !(← asserted (root.isMember renameKey)) then return m
  let section' ← asserted (root.get renameKey)
  let names ← asserted section'.getMemberNames
  names.foldlM (fun m c => return m.setReplayChannel c (← asserted ((← asserted (section'.get c)).asString))) m

def init (root : Json) : Except Failure LogPlayer := do
  let startMode ← initStart root
  let (filterMode, channelMap) ← initFilter root
  return ⟨startMode, filterMode, ← initRename root channelMap⟩

end Init

section Run

namespace LogPlayer

variable (p : LogPlayer) (firstMsgUtime : BitVec 64) (signalled : Nat → Bool)

def starts (le : Event) : Bool :=
  match p.startMode with
  | none => true
  | some (.channel startChan) => le.channel = startChan
  | some (.usDelay startDelayUs) => firstMsgUtime + startDelayUs < le.timestamp

def newLe (le : Event) : Event :=
  match p.channelMap le.channel with
  | some details => if details.replayChannel.isEmpty then le else { le with channel := details.replayChannel }
  | none => le

/-- What becomes of an event behind the start: it is published, dropped, or ends the run with an error. -/
inductive Verdict
  | publish | drop | fail
deriving DecidableEq

def judge (le : Event) : Verdict :=
  match p.filterMode, p.channelMap le.channel with
  | none, _ => .publish
  | some .whitelist, details => if details.isSome then .publish else .drop
  | some .blacklist, details => if details.isSome then .drop else .publish
  | some .specified, none => .fail
  | some .specified, some details => if details.enabled then .publish else .drop

/-- The loop of `run`, with the events it hands to `publish` or `writeEvent`, whatever these do with them, and the
result. A signal is seen behind an event. -/
def loop : Nat → Bool → List Event → List Event × Int
  | _, _, [] => ([], 0)
  | i, startedPub, le :: log =>
      let startedPub := startedPub || p.starts firstMsgUtime le
      let verdict := if startedPub then p.judge le else .drop
      if verdict = .fail then ([], 1)
      else
        let published := if verdict = .publish then [p.newLe le] else []
        if signalled i then (published, 0)
        else
          let (later, err) := loop (i + 1) startedPub log
          (published ++ later, err)

def run (log : List Event) : List Event × Int :=
  match log with
  | [] => ([], 0)
  | le :: _ => p.loop le.timestamp signalled 0 p.startMode.isNone log

end LogPlayer

end Run

end Zcm.Logplayer
