import Zcm.Blocking.Threads

namespace Zcm.Blocking
open Zcm.Lib Zcm.Util

def Spot.stops : Spot → Bool
  | .stopMode _ | .stopRecv _ | .stopJoinHndl | .stopHndlStopped | .stopJoinRecv | .stopRecvStopped
  | .stopSend _ | .stopJoinSend | .stopSendStopped | .stopPollRecv | .stopPollSend | .stopRestore
  | .runRestore | .sendHalt | .recvHalt | .hndlStopRecv | .hndlJoinRecv | .hndlHalt => true
  | _ => false

def Spot.launches : Spot → Bool
  | .startSpawn | .runSpawn | .handleSpawn | .hndlSpawn => true
  | _ => false

namespace Lifecycle
variable {l l' : Lifecycle} {a b : Agent}

structure Launch (l : Lifecycle) : Prop where
  roles : l.Roles
  alive : l.crashed = false
  noStop : ∀ a, (l.spot a).stops = false
  sendState : l.sendThreadState = .stopped ∧ l.sendThread = false ∨ l.sendThreadState = .running
  recvState : l.recvThreadState ≠ .halting
  hndlState : l.hndlThreadState ≠ .halting
  unlaunched : l.recvMode = .none →
    l.recvThread = false ∧ l.spot .receiver = .idle ∧ l.hndlThread = false ∧ l.spot .handler = .idle ∧
      ∀ a, (l.spot a).launches = false
  launching : ∀ a, (l.spot a).launches = true → l.recvThread = false ∧ l.spot .receiver = .idle ∧
    ∀ b, (l.spot b).launches = true → b = a
  starting : ∀ a, l.spot a = .startSpawn → l.hndlThread = false ∧ l.spot .handler = .idle

inductive Advance (l : Lifecycle) (a : Agent) : Lifecycle → Prop
  | quiet : Advance l a l
  | goes (p : Spot) (closed : Bool) (stays : p.stops = false) (unlaunched : p.launches = false)
      (was : (l.spot a).launches = false) (api : a.isApi = true) :
      Advance l a ({ l with sendClosed := closed }.move a p)
  | publishes (here : l.spot a = .publishSpawn) (stopped : l.sendThreadState = .stopped) :
      Advance l a ({ l with sendThreadState := .running }.spawnSend.move a .calling)
  | takes (p : Spot) (taken : RecvMode) (mode : l.recvMode = .none) (launches : p.launches = true)
      (stays : p.stops = false) (isMode : taken ≠ .none) (api : a.isApi = true) :
      Advance l a ({ l with recvMode := taken, recvModeMutex := some a }.move a p)
  | startsHndl (here : l.spot a = .startSpawn) :
      Advance l a ({ l with recvModeMutex := none, hndlThreadState := .running }.spawnHndl.move a .idle)
  | runsHndl (here : l.spot a = .runSpawn) :
      Advance l a ({ l with recvModeMutex := none, hndlThreadState := .running }.move a .hndlSpawn)
  | startsRecv (here : l.spot a = .handleSpawn) :
      Advance l a ({ l with recvModeMutex := none, recvThreadState := .running }.spawnRecv.move a .calling)
  | hndlStarts (here : l.spot a = .hndlSpawn) :
      Advance l a ({ l with recvThreadState := .running }.spawnRecv.move a .handling)

theorem Launch.advance (launch : l.Launch) (h : Step l a l') : Advance l a l' := by
  have mine := launch.noStop a
  have role := launch.roles a
  have sendState := launch.sendState
  have recvState := launch.recvState
  have hndlState := launch.hndlState
  cases h
  case quiet => exact .quiet
  case calls p closed here next closes =>
    rw [here] at role
    refine .goes p closed ?_ ?_ (by rw [here]; rfl) role
    · rcases next with rfl | rfl | rfl <;> rfl
    · rcases next with rfl | rfl | rfl <;> rfl
  case opens p here next =>
    rw [here] at role
    refine .goes p false ?_ ?_ (by rw [here]; rfl) role
    · rcases next with rfl | rfl <;> rfl
    · rcases next with rfl | rfl <;> rfl
  case publishes here stopped => exact .publishes here stopped
  case publishesToo here _ | handlesToo here _ =>
    rw [here] at role
    exact .goes .calling l.sendClosed rfl rfl (by rw [here]; rfl) role
  case refuses here =>
    rcases here with here | here | here
    all_goals
      rw [here] at role
      exact .goes .idle l.sendClosed rfl rfl (by rw [here]; rfl) role
  case starts here _ mode =>
    rw [here] at role
    exact .takes .startSpawn .spawn mode rfl rfl nofun role
  case runs here _ mode =>
    rw [here] at role
    exact .takes .runSpawn .run mode rfl rfl nofun role
  case handles here _ mode =>
    rw [here] at role
    exact .takes .handleSpawn .handle mode rfl rfl nofun role
  case startsHndl here => exact .startsHndl here
  case runsHndl here => exact .runsHndl here
  case startsRecv here => exact .startsRecv here
  case hndlStarts here => exact .hndlStarts here
  case sendHalts here halting => rcases sendState with ⟨state, -⟩ | state <;> simp [state] at halting
  case recvHalts here halting => exact absurd halting recvState
  case hndlHalts here halting => exact absurd halting hndlState
  case givesUp here => rcases here with here | here <;> simp [here, Spot.stops] at mine
  all_goals simp_all [Spot.stops]

theorem Launch.noStop_step (launch : l.Launch) (h : Advance l a l') : (l'.spot b).stops = false := by
  have theirs := launch.noStop b
  cases h
  case quiet => exact theirs
  all_goals simp only [spawnSend, spawnRecv, spawnHndl, move_spot]
  all_goals grind -linarith [Spot.stops]

theorem Launch.states_step (launch : l.Launch) (h : Advance l a l') :
    (l'.sendThreadState = .stopped ∧ l'.sendThread = false ∨ l'.sendThreadState = .running) ∧
      l'.recvThreadState ≠ .halting ∧ l'.hndlThreadState ≠ .halting ∧ l'.crashed = false := by
  have sendState := launch.sendState
  have recvState := launch.recvState
  have hndlState := launch.hndlState
  have alive := launch.alive
  have launching := launch.launching a
  have starting := launch.starting a
  cases h
  case quiet => exact ⟨sendState, recvState, hndlState, alive⟩
  all_goals simp only [move, spawnSend, spawnRecv, spawnHndl]
  all_goals grind -linarith [Spot.launches]

theorem Launch.unlaunched_step (launch : l.Launch) (h : Advance l a l') (mode : l'.recvMode = .none) :
    l'.recvThread = false ∧ l'.spot .receiver = .idle ∧ l'.hndlThread = false ∧
      l'.spot .handler = .idle ∧ ∀ b, (l'.spot b).launches = false := by
  have unlaunched := launch.unlaunched
  have role := launch.roles a
  cases h
  case quiet => exact unlaunched mode
  all_goals simp only [move, spawnSend, spawnRecv, spawnHndl, Function.update_apply] at mode ⊢
  all_goals grind -linarith [Spot.launches, Spot.allows, Agent.isApi]

theorem Launch.launching_step (launch : l.Launch) (h : Advance l a l')
    (launches : (l'.spot b).launches = true) :
    l'.recvThread = false ∧ l'.spot .receiver = .idle ∧
      ∀ c, (l'.spot c).launches = true → c = b := by
  have role := launch.roles a
  have unlaunched := launch.unlaunched
  have launching := launch.launching
  cases h
  case quiet => exact launching b launches
  all_goals simp only [move, spawnSend, spawnRecv, spawnHndl, Function.update_apply] at launches ⊢
  all_goals grind -linarith [Spot.launches, Spot.allows, Agent.isApi]

theorem Launch.starting_step (launch : l.Launch) (h : Advance l a l') (starts : l'.spot b = .startSpawn) :
    l'.hndlThread = false ∧ l'.spot .handler = .idle := by
  have role := launch.roles a
  have unlaunched := launch.unlaunched
  have launching := launch.launching
  have starting := launch.starting
  cases h
  case quiet => exact starting b starts
  all_goals simp only [move, spawnSend, spawnRecv, spawnHndl, Function.update_apply] at starts ⊢
  all_goals grind -linarith [Spot.launches, Spot.allows, Agent.isApi]

theorem Launch.step (launch : l.Launch) (h : Step l a l') : l'.Launch := by
  have advance := launch.advance h
  obtain ⟨sendState, recvState, hndlState, alive⟩ := launch.states_step advance
  exact ⟨launch.roles.step h, alive, fun _ => launch.noStop_step advance, sendState, recvState, hndlState,
    launch.unlaunched_step advance, fun _ => launch.launching_step advance,
    fun _ => launch.starting_step advance⟩

theorem Launch.call (launch : l.Launch) {id : Nat} {c : Call} {p : Spot}
    (noStop : ∀ block, c ≠ .stop block) (enters : p = c.spot ∨ p = .idle) :
    (l.move (.api id) p).Launch := by
  have entry : p.stops = false ∧ p.launches = false := by
    rcases enters with rfl | rfl
    · cases c
      case stop block => exact absurd rfl (noStop block)
      all_goals exact ⟨rfl, rfl⟩
    · exact ⟨rfl, rfl⟩
  have still : ∀ {b}, ((l.move (.api id) p).spot b).launches = true → (l.spot b).launches = true := by
    intro b launches
    rw [move_spot] at launches
    split at launches
    · rw [entry.2] at launches
      cases launches
    · exact launches
  have receiver : (l.move (.api id) p).spot .receiver = l.spot .receiver := by simp [move_spot]
  have handler : (l.move (.api id) p).spot .handler = l.spot .handler := by simp [move_spot]
  refine ⟨launch.roles.call enters, launch.alive, fun b => ?_, launch.sendState, launch.recvState,
    launch.hndlState, fun mode => ?_, fun b launches => ?_, fun b starts => ?_⟩
  · rw [move_spot]
    split
    · exact entry.1
    · exact launch.noStop b
  · obtain ⟨recvThread, recvIdle, hndlThread, hndlIdle, none_⟩ := launch.unlaunched mode
    rw [receiver, handler]
    refine ⟨recvThread, recvIdle, hndlThread, hndlIdle, fun b => ?_⟩
    by_contra launches
    have := still (by simpa using launches)
    rw [none_ b] at this
    cases this
  · obtain ⟨recvThread, recvIdle, alone⟩ := launch.launching b (still launches)
    rw [receiver]
    exact ⟨recvThread, recvIdle, fun c launchesToo => alone c (still launchesToo)⟩
  · rw [handler]
    rw [move_spot] at starts
    split at starts
    · rw [starts] at entry
      cases entry.2
    · exact launch.starting b starts

end Lifecycle

theorem State.launch_init (mtu : Nat) : (State.init mtu).lifecycle.Launch where
  roles := State.roles_init mtu
  alive := rfl
  noStop _ := rfl
  sendState := .inl ⟨rfl, rfl⟩
  recvState := nofun
  hndlState := nofun
  unlaunched _ := ⟨rfl, rfl, rfl, rfl, fun _ => rfl⟩
  launching _ launches := by cases launches
  starting _ starts := by cases starts

theorem State.launch_next {s t : State} {e : Event} (launch : s.lifecycle.Launch)
    (noStop : ∀ id block, e ≠ .call id (.stop block)) (h : s.next e = some t) : t.lifecycle.Launch := by
  obtain ⟨-, next⟩ := next_lifecycle h
  generalize t.lifecycle = l' at next
  cases next with
  | step steps => exact launch.step steps
  | @call id c p idle enters =>
      refine launch.call (fun block stops => noStop id block ?_) enters
      rw [stops]
  | transport | wake => exact launch

end Zcm.Blocking
