import HevFsh.Transitions
import HevFsh.ForwardReader
import Mathlib.Logic.Function.Basic

/-! The two tasks of hev-fsh-client-forward in their process. The other tasks, such
as the accepts that dispatch starts, open and close descriptors by number. Tasks
switch at blocking calls only; the lock says nothing about who gets it next. -/
namespace HevFsh.ForwardTask
open Protocol Transitions ClientForward

/- What hev_fsh_client_forward_write_login sends, one lock and one send each. -/
inductive Piece where
  | header | token
  deriving DecidableEq, Repr

inductive Who where
  | main | kalive
  deriving DecidableEq, Repr

inductive Main where
  | asleep
  | connecting (fd : Int)
  | writeLock (p : Piece)
  | writeSend (p : Piece) (sent : Nat)
  | reading (r : Reader)
  deriving DecidableEq, Repr

inductive Kalive where
  | asleep
  | writeLock
  | writeSend (fd : Int) (sent : Nat)
  deriving DecidableEq, Repr

/- `fd` is that of the base; `fds` has the open numbers with what each is open on,
and `others` the numbers that the other tasks take for theirs. -/
structure Process where
  fd : Int
  main : Main
  kalive : Kalive
  wlock : Option Who
  fds : Int → Option Nat
  others : Int → Bool
  count : Nat

/- The configured token text as hev_fsh_protocol_token_from_string reads it. -/
structure Config where
  token : Option (Option Token)

inductive Action where
  | noSocket
  | socket (fd : Int)
  | connectReturn (res : Int)
  | lock (w : Who)
  | send (w : Who) (n : Nat)
  | sendReturn (w : Who) (res : Int)
  | receive (b : UInt8)
  | recvFails
  | wake
  | opens (fd : Int)
  | closes (fd : Int)
  deriving DecidableEq, Repr

inductive Event where
  | opened (conn : Nat) (fd : Int)
  | connected (conn : Option Nat) (fd : Int)
  | closed (fd : Int) (conn : Option Nat)
  | restart (fd : Int)
  | sent (p : Piece) (start : Nat) (conn : Nat) (bytes : Bytes)
  | kept (conn : Nat) (bytes : Bytes)
  deriving DecidableEq, Repr

def Config.version (cfg : Config) : UInt8 := if cfg.token.isSome then 3 else 1

def Piece.bytes (cfg : Config) : Piece → Bytes
  | .header => message cfg.version .login []
  | .token => match cfg.token with
      | some (some t) => t.bytes
      | _ => []

def keepAlive : Bytes := message 2 .keepAlive []

def closeFd (fds : Int → Option Nat) (fd : Int) : Int → Option Nat := Function.update fds fd none

def restart (σ : Process) : Process × List Event :=
  ({σ with main := .asleep, fds := closeFd σ.fds σ.fd},
    [.restart σ.fd,.closed σ.fd (σ.fds σ.fd)])

def init : Process where
  fd := -1
  main := .asleep
  kalive := .asleep
  wlock := none
  fds _ := none
  others _ := false
  count := 0

def connectReturn (σ : Process) (res : Int) : Main → Option (Process × List Event)
  | .connecting fd =>
      if res < 0 then
        let (σ',es) := restart {σ with fds := closeFd σ.fds fd}
        some (σ',.closed fd (σ.fds fd) :: es)
      else some ({σ with fd := fd, main := .writeLock .header},[.connected (σ.fds fd) fd])
  | _ => none

def written (cfg : Config) (σ : Process) : Piece → Process × List Event
  | .header => match cfg.token with
      | none => ({σ with main := .reading .start},[])
      | some none => restart σ
      | some (some _) => ({σ with main := .writeLock .token},[])
  | .token => ({σ with main := .reading .start},[])

def mainReturn (cfg : Config) (σ : Process) (res : Int) : Main → Option (Process × List Event)
  | .writeSend p _ =>
      let σ₁ := {σ with wlock := none}
      some (if res ≤ 0 then restart σ₁ else written cfg σ₁ p)
  | _ => none

def receive (σ : Process) (b : UInt8) : Main → Option (Process × List Event)
  | .reading r =>
      let r' := feed r b
      some (if r'.reading = .stopped then restart σ else ({σ with main := .reading r'},[]))
  | _ => none

def step (cfg : Config) (σ : Process) : Action → Option (Process × List Event)
  | .noSocket => if σ.main = .asleep then some (restart σ) else none
  | .socket fd =>
      if σ.main = .asleep ∧ 0 ≤ fd ∧ σ.fds fd = none then
        some ({σ with
          main := .connecting fd
          fds := Function.update σ.fds fd (some σ.count)
          count := σ.count + 1},[.opened σ.count fd])
      else none
  | .connectReturn res => connectReturn σ res σ.main
  | .lock .main => match σ.main with
      | .writeLock p =>
          if σ.wlock = none then
            some ({σ with wlock := some .main, main := .writeSend p 0},[])
          else none
      | _ => none
  | .lock .kalive =>
      if σ.kalive = .writeLock ∧ σ.wlock = none then
        some ({σ with wlock := some .kalive, kalive := .writeSend σ.fd 0},[])
      else none
  | .send .main n => match σ.main with
      | .writeSend p sent =>
          if 0 < n ∧ sent + n ≤ (p.bytes cfg).length then do
            let conn ← σ.fds σ.fd
            some ({σ with main := .writeSend p (sent + n)},
              [.sent p sent conn (((p.bytes cfg).drop sent).take n)])
          else none
      | _ => none
  | .send .kalive n => match σ.kalive with
      | .writeSend fd sent =>
          if 0 < n ∧ sent + n ≤ keepAlive.length then do
            let conn ← σ.fds fd
            some ({σ with kalive := .writeSend fd (sent + n)},
              [.kept conn ((keepAlive.drop sent).take n)])
          else none
      | _ => none
  | .sendReturn .main res => mainReturn cfg σ res σ.main
  | .sendReturn .kalive _ => match σ.kalive with
      | .writeSend _ _ => some ({σ with wlock := none, kalive := .asleep},[])
      | _ => none
  | .receive b => receive σ b σ.main
  | .recvFails => match σ.main with
      | .reading _ => some (restart σ)
      | _ => none
  | .wake => if σ.kalive = .asleep then some ({σ with kalive := .writeLock},[]) else none
  | .opens fd =>
      if 0 ≤ fd ∧ σ.fds fd = none then
        some ({σ with
          fds := Function.update σ.fds fd (some σ.count)
          others := Function.update σ.others fd true
          count := σ.count + 1},[.opened σ.count fd])
      else none
  | .closes fd =>
      if σ.others fd = true then
        some ({σ with
          fds := closeFd σ.fds fd
          others := Function.update σ.others fd false},[.closed fd (σ.fds fd)])
      else none

def machine (cfg : Config) : Machine Process Action Event := ⟨init,step cfg⟩

/- Ways to `restart`: the result that leads there, and what is left to close. -/
inductive Restarts (cfg : Config) (σ : Process) : Action → Process → List Event → Prop where
  | noSocket (main : σ.main = .asleep) : Restarts cfg σ .noSocket σ []
  | connectFails {fd res} (main : σ.main = .connecting fd) (fail : res < 0) :
      Restarts cfg σ (.connectReturn res) {σ with fds := closeFd σ.fds fd} [.closed fd (σ.fds fd)]
  | writeFails {p sent res} (main : σ.main = .writeSend p sent)
      (fail : res ≤ 0 ∨ p = .header ∧ cfg.token = some none) :
      Restarts cfg σ (.sendReturn .main res) {σ with wlock := none} []
  | stops {r b} (main : σ.main = .reading r) (ending : (feed r b).reading = .stopped) :
      Restarts cfg σ (.receive b) σ []
  | recvFails {r} (main : σ.main = .reading r) : Restarts cfg σ .recvFails σ []

inductive Moves (cfg : Config) (σ : Process) : Action → Process → List Event → Prop where
  | restarts {a σ₁ es} (way : Restarts cfg σ a σ₁ es) :
      Moves cfg σ a (restart σ₁).1 (es ++ (restart σ₁).2)
  | socket {fd} (main : σ.main = .asleep) (valid : 0 ≤ fd) (free : σ.fds fd = none) :
      Moves cfg σ (.socket fd)
        {σ with
          main := .connecting fd
          fds := Function.update σ.fds fd (some σ.count)
          count := σ.count + 1} [.opened σ.count fd]
  | connects {fd res} (main : σ.main = .connecting fd) (done : 0 ≤ res) :
      Moves cfg σ (.connectReturn res) {σ with fd := fd, main := .writeLock .header}
        [.connected (σ.fds fd) fd]
  | locks {p} (main : σ.main = .writeLock p) (free : σ.wlock = none) :
      Moves cfg σ (.lock .main) {σ with wlock := some .main, main := .writeSend p 0} []
  | keepLocks (kalive : σ.kalive = .writeLock) (free : σ.wlock = none) :
      Moves cfg σ (.lock .kalive) {σ with wlock := some .kalive, kalive := .writeSend σ.fd 0} []
  | sends {p sent n conn} (main : σ.main = .writeSend p sent) (positive : 0 < n)
      (room : sent + n ≤ (p.bytes cfg).length) (valid : σ.fds σ.fd = some conn) :
      Moves cfg σ (.send .main n) {σ with main := .writeSend p (sent + n)}
        [.sent p sent conn (((p.bytes cfg).drop sent).take n)]
  | keepSends {fd sent n conn} (kalive : σ.kalive = .writeSend fd sent) (valid : σ.fds fd = some conn) :
      Moves cfg σ (.send .kalive n) {σ with kalive := .writeSend fd (sent + n)}
        [.kept conn ((keepAlive.drop sent).take n)]
  | headerWritten {sent res t} (main : σ.main = .writeSend .header sent) (done : 0 < res)
      (configured : cfg.token = some (some t)) :
      Moves cfg σ (.sendReturn .main res) {σ with wlock := none, main := .writeLock .token} []
  | loginWritten {p sent res} (main : σ.main = .writeSend p sent) (done : 0 < res)
      (last : p = .token ∨ cfg.token = none) :
      Moves cfg σ (.sendReturn .main res) {σ with wlock := none, main := .reading .start} []
  | keepReturns {fd sent res} (kalive : σ.kalive = .writeSend fd sent) :
      Moves cfg σ (.sendReturn .kalive res) {σ with wlock := none, kalive := .asleep} []
  | reads {r b} (main : σ.main = .reading r) :
      Moves cfg σ (.receive b) {σ with main := .reading (feed r b)} []
  | wakes (kalive : σ.kalive = .asleep) : Moves cfg σ .wake {σ with kalive := .writeLock} []
  | opens {fd} (valid : 0 ≤ fd) (free : σ.fds fd = none) :
      Moves cfg σ (.opens fd)
        {σ with
          fds := Function.update σ.fds fd (some σ.count)
          others := Function.update σ.others fd true
          count := σ.count + 1} [.opened σ.count fd]
  | closes {fd} (held : σ.others fd = true) :
      Moves cfg σ (.closes fd)
        {σ with fds := closeFd σ.fds fd, others := Function.update σ.others fd false}
        [.closed fd (σ.fds fd)]

section steps
variable {cfg : Config} {σ σ' : Process} {es : List Event}

theorem connectReturnMoves {res} (h : connectReturn σ res σ.main = some (σ',es)) :
    Moves cfg σ (.connectReturn res) σ' es := by
  unfold connectReturn at h
  split at h <;> try contradiction
  rename_i fd main
  split at h
  · rename_i fail
    cases Option.some.inj h
    exact .restarts (.connectFails main fail)
  · rename_i done
    cases Option.some.inj h
    exact .connects main (Int.not_lt.mp done)

theorem mainReturnMoves {res} (h : mainReturn cfg σ res σ.main = some (σ',es)) :
    Moves cfg σ (.sendReturn .main res) σ' es := by
  unfold mainReturn at h
  split at h <;> try contradiction
  rename_i p sent main
  have h := Option.some.inj h
  split at h
  · rename_i fail
    cases h
    exact .restarts (.writeFails main (.inl fail))
  · rename_i ok
    have done : 0 < res := Int.not_le.mp ok
    cases p with
    | token =>
      cases h
      exact .loginWritten main done (.inl rfl)
    | header =>
      simp only [written] at h
      split at h
      · rename_i absent
        cases h
        exact .loginWritten main done (.inr absent)
      · rename_i bad
        cases h
        exact .restarts (.writeFails main (.inr ⟨rfl,bad⟩))
      · rename_i t configured
        cases h
        exact .headerWritten main done configured

theorem stepMoves {a} (h : step cfg σ a = some (σ',es)) : Moves cfg σ a σ' es := by
  cases a with
  | noSocket =>
    simp only [step] at h
    split at h <;> try contradiction
    rename_i main
    cases Option.some.inj h
    exact .restarts (.noSocket main)
  | socket fd =>
    simp only [step] at h
    split at h <;> try contradiction
    rename_i free
    cases Option.some.inj h
    exact .socket free.1 free.2.1 free.2.2
  | connectReturn res => exact connectReturnMoves h
  | lock w =>
    cases w with
    | main =>
      simp only [step] at h
      split at h <;> try contradiction
      rename_i p main
      split at h <;> try contradiction
      rename_i free
      cases Option.some.inj h
      exact .locks main free
    | kalive =>
      simp only [step] at h
      split at h <;> try contradiction
      rename_i free
      cases Option.some.inj h
      exact .keepLocks free.1 free.2
  | send w n =>
    cases w with
    | main =>
      simp only [step] at h
      split at h <;> try contradiction
      rename_i p sent main
      split at h <;> try contradiction
      rename_i fits
      obtain ⟨conn,valid,h⟩ := Option.bind_eq_some_iff.mp h
      cases Option.some.inj h
      exact .sends main fits.1 fits.2 valid
    | kalive =>
      simp only [step] at h
      split at h <;> try contradiction
      rename_i fd sent kalive
      split at h <;> try contradiction
      obtain ⟨conn,valid,h⟩ := Option.bind_eq_some_iff.mp h
      cases Option.some.inj h
      exact .keepSends kalive valid
  | sendReturn w res =>
    cases w with
    | main => exact mainReturnMoves h
    | kalive =>
      simp only [step] at h
      split at h <;> try contradiction
      rename_i fd sent kalive
      cases Option.some.inj h
      exact .keepReturns kalive
  | receive b =>
    simp only [step,receive] at h
    split at h <;> try contradiction
    rename_i r main
    have h := Option.some.inj h
    split at h
    · rename_i ending
      cases h
      exact .restarts (.stops main ending)
    · cases h
      exact .reads main
  | recvFails =>
    simp only [step] at h
    split at h <;> try contradiction
    rename_i r main
    cases Option.some.inj h
    exact .restarts (.recvFails main)
  | wake =>
    simp only [step] at h
    split at h <;> try contradiction
    rename_i kalive
    cases Option.some.inj h
    exact .wakes kalive
  | opens fd =>
    simp only [step] at h
    split at h <;> try contradiction
    rename_i free
    cases Option.some.inj h
    exact .opens free.1 free.2
  | closes fd =>
    simp only [step] at h
    split at h <;> try contradiction
    rename_i held
    cases Option.some.inj h
    exact .closes held

end steps

end HevFsh.ForwardTask
