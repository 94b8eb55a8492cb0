import PgApp.Interleave.Part
import PgApp.Mq.Channel
import Mathlib.Data.List.TakeWhile

/-!
# Notifications (`listen.rs`, and the LISTEN and NOTIFY of PostgreSQL)

`MqNet` is the MQ store with what PostgreSQL keeps for its listeners: the NOTIFYs of open
transactions (`pending`), and for each session that has an `MqListener` its connection, with the
notifications that were sent there and not received yet.

A NOTIFY is sent when its transaction commits, to everybody who listens on the channel by then, and
not at all if it is rolled back.  It arrives some time later, in the order of the COMMITs.  `recv`
hands out what has arrived and waits otherwise: one step, at the end of its wait.  How much has
arrived by then is in the context (`Link`), and so is what was lost because the listener had to
connect again.

The statements of the store are those of `MqStmt` (`mqPart`).
-/

namespace PgApp
open Interleave

structure MqNotification where
  channel : String
  payload : String
deriving DecidableEq

/-- a listener and what was sent to it -/
structure Connection where
  listener : MqListener
  sent : List MqNotification

structure MqNet where
  mq : MqDb
  pending : Slots (List MqNotification)
  listeners : Slots Connection

def MqNet.empty : MqNet := ⟨MqDb.empty, [], []⟩

/-- what has happened to a connection: so many notifications are lost, and so many more have
arrived -/
inductive Link where
  | up (lost came : Nat)
  | down
deriving DecidableEq

structure NetCtx where
  mq : MqCtx
  link : Link

/-- how a `recv` with a time limit ends -/
inductive Received where
  | notified (n : MqNotification)
  | timedOut
  | failed

inductive NetStmt where
  | mq (st : MqStmt)
  | connect (queueName : String)
  | recv (wait : Time)

/-- `connect` answers whether there is a listener now: its error is only logged -/
abbrev NetStmt.Res : NetStmt → Type
  | .mq st => st.Res
  | .connect _ => Bool
  | .recv _ => Received

/-! ## sending -/

/-- what is sent to a connection -/
def Connection.hear (ns : List MqNotification) (c : Connection) : Connection :=
  { c with sent := c.sent ++ ns.filter fun n => c.listener.listening == n.channel }

def MqNet.send (ns : List MqNotification) (net : MqNet) : MqNet :=
  { net with listeners := net.listeners.map fun p => (p.1, p.2.hear ns) }

/-- one more NOTIFY of a transaction; a second one like it is dropped -/
def addNotify (n : MqNotification) (ns : List MqNotification) : List MqNotification :=
  if ns.contains n then ns else ns ++ [n]

/-- `pg_notify`: at the commit, or at once where no transaction is open -/
def MqNet.notify (s : Nat) (n : MqNotification) (net : MqNet) : MqNet :=
  match net.pending.get s with
  | some ns => { net with pending := net.pending.set s (addNotify n ns) }
  | none => net.send [n]

/-- what the end of a transaction does with its NOTIFYs -/
def MqNet.settle (s : Nat) (commits : Bool) (net : MqNet) : MqNet :=
  let told := if commits then net.send ((net.pending.get s).getD []) else net
  { told with pending := net.pending.erase s }

/-- what a statement of the store does to the notifications -/
def MqNet.told (s : Nat) (net : MqNet) : (st : MqStmt) → st.Res → MqNet
  | .begin, _ => { net with pending := net.pending.set s [] }
  | .commit, _ => net.settle s true
  | .rollback, _ => net.settle s false
  | .pgNotify channel payload, .ok () => net.notify s ⟨channel, payload⟩
  | _, _ => net

/-! ## receiving -/

/-- `MqListener::connect` -/
def MqNet.connect (s : Nat) (link : Link) (queueName : String) (net : MqNet) : Bool × MqNet :=
  match MqListener.connect queueName with
  | .error _ => (false, net)
  | .ok listener =>
    if link = .down then (false, net)
    else (true, { net with listeners := net.listeners.set s ⟨listener, []⟩ })

/-- what is still on its way to a connection -/
def Connection.underWay (c : Connection) (lost came : Nat) : List MqNotification :=
  (c.sent.drop lost).drop came

/-- the loop of `recv`: notifications for other channels are passed over -/
def Connection.next (c : Connection) (lost came : Nat) : List MqNotification :=
  ((c.sent.drop lost).take came).dropWhile fun n => n.channel != c.listener.channel

/-- `timeout(wait, listener.recv())`, at the end of the wait -/
def Connection.recv (c : Connection) (lost came : Nat) : Received × List MqNotification :=
  match c.next lost came with
  | [] => (.timedOut, c.underWay lost came)
  | n :: rest => (.notified n, rest ++ c.underWay lost came)

def MqNet.recv (s : Nat) (link : Link) (net : MqNet) : Option (Received × MqNet) :=
  match net.listeners.get s with
  | none => none
  | some c =>
    match link with
    | .down => some (.failed, { net with listeners := net.listeners.erase s })
    | .up lost came =>
      let (received, rest) := c.recv lost came
      some (received, { net with listeners := net.listeners.set s { c with sent := rest } })

/-- one statement of session `s`; `none` means that it has to wait -/
def NetStmt.exec (s : Nat) (c : NetCtx) : (st : NetStmt) → MqNet → Option (st.Res × MqNet)
  | .mq st, net =>
      (st.exec s c.mq net.mq).map fun p => (p.1, { net.told s st p.1 with mq := p.2 })
  | .connect queueName, net => some (net.connect s c.link queueName)
  | .recv _, net => net.recv s c.link

/-! ## the store in it -/

section
variable {s : Nat} {c : NetCtx} {net net' : MqNet}

/-- the NOTIFYs that wait after a statement of their session -/
def MqStmt.pendingAfter : (st : MqStmt) → st.Res → Option (List MqNotification) →
    Option (List MqNotification)
  | .begin, _, _ => some []
  | .commit, _, _ => none
  | .rollback, _, _ => none
  | .pgNotify channel payload, .ok (), waiting => waiting.map (addNotify ⟨channel, payload⟩)
  | _, _, waiting => waiting

theorem MqNet.told_own (s : Nat) (net : MqNet) (st : MqStmt) (r : st.Res) :
    (net.told s st r).pending.get s = st.pendingAfter r (net.pending.get s) := by
  have hsettle : ∀ commits, (net.settle s commits).pending.get s = none :=
    fun commits => Slots.get_erase_self _ s
  cases st with
  | begin => exact Slots.get_set_self _ _ _
  | commit => exact hsettle true
  | rollback => exact hsettle false
  | pgNotify channel payload =>
    cases r with
    | error e => rfl
    | ok u =>
      show (net.notify s ⟨channel, payload⟩).pending.get s = (net.pending.get s).map _
      unfold MqNet.notify
      cases hg : net.pending.get s with
      | none => exact hg
      | some ns => exact Slots.get_set_self _ _ _
  | _ => rfl

theorem pendingAfter_isSome (st : MqStmt) (r : st.Res) (waiting : Option (List MqNotification)) :
    (st.pendingAfter r waiting).isSome = openAfter st waiting.isSome := by
  cases st with
  | pgNotify channel payload =>
    cases r with
    | error e => rfl
    | ok u => exact Option.isSome_map ..
  | _ => rfl

theorem MqNet.told_other {s t : Nat} (ht : t ≠ s) (net : MqNet) (st : MqStmt) (r : st.Res) :
    (net.told s st r).pending.get t = net.pending.get t := by
  have hsettle : ∀ commits, (net.settle s commits).pending.get t = net.pending.get t := by
    intro commits
    unfold MqNet.settle
    cases commits with
    | true => exact Slots.get_erase_ne _ ht
    | false => exact Slots.get_erase_ne _ ht
  cases st with
  | begin => exact Slots.get_set_ne _ _ ht
  | commit => exact hsettle true
  | rollback => exact hsettle false
  | pgNotify channel payload =>
    cases r with
    | error e => rfl
    | ok u =>
      show (net.notify s ⟨channel, payload⟩).pending.get t = _
      unfold MqNet.notify
      split
      · exact Slots.get_set_ne _ _ ht
      · rfl
  | _ => rfl

theorem exec_net {st : MqStmt} {r : st.Res}
    (hx : NetStmt.exec s c (.mq st) net = some (r, net')) :
    ∃ db, st.exec s c.mq net.mq = some (r, db) ∧ net' = { net.told s st r with mq := db } := by
  obtain ⟨p, hp, he⟩ := Option.map_eq_some_iff.mp hx
  obtain ⟨rfl, rfl⟩ := Prod.mk.inj he
  exact ⟨p.2, hp, rfl⟩

theorem exec_connect {queueName : String} {r : Bool}
    (hx : NetStmt.exec s c (.connect queueName) net = some (r, net')) :
    net'.mq = net.mq ∧ net'.pending = net.pending ∧
      ((r = false ∧ net' = net) ∨ ∃ listener, r = true ∧ MqListener.connect queueName
        = .ok listener ∧
        net'.listeners = net.listeners.set s ⟨listener, []⟩) := by
  have he : net.connect s c.link queueName = (r, net') := Option.some.inj hx
  unfold MqNet.connect at he
  cases hl : MqListener.connect queueName with
  | error e =>
    rw [hl] at he
    obtain ⟨rfl, rfl⟩ := Prod.mk.inj he
    exact ⟨rfl, rfl, .inl ⟨rfl, rfl⟩⟩
  | ok listener =>
    rw [hl] at he
    simp only at he
    split at he
    · obtain ⟨rfl, rfl⟩ := Prod.mk.inj he
      exact ⟨rfl, rfl, .inl ⟨rfl, rfl⟩⟩
    · obtain ⟨rfl, rfl⟩ := Prod.mk.inj he
      exact ⟨rfl, rfl, .inr ⟨listener, rfl, rfl, rfl⟩⟩

theorem exec_recv {wait : Time} {r : Received}
    (hx : NetStmt.exec s c (.recv wait) net = some (r, net')) :
    net'.mq = net.mq ∧ net'.pending = net.pending ∧ ∃ conn, net.listeners.get s = some conn ∧
      ((c.link = .down ∧ r = .failed ∧ net'.listeners = net.listeners.erase s) ∨
        ∃ lost came, c.link = .up lost came ∧ r = (conn.recv lost came).1 ∧
          net'.listeners = net.listeners.set s { conn with sent := (conn.recv lost came).2 }) := by
  have he : net.recv s c.link = some (r, net') := hx
  unfold MqNet.recv at he
  cases hg : net.listeners.get s with
  | none =>
    rw [hg] at he
    cases he
  | some conn =>
    rw [hg] at he
    cases hl : c.link with
    | down =>
      rw [hl] at he
      obtain ⟨rfl, rfl⟩ := Prod.mk.inj (Option.some.inj he)
      exact ⟨rfl, rfl, conn, rfl, .inl ⟨rfl, rfl, rfl⟩⟩
    | up lost came =>
      rw [hl] at he
      obtain ⟨rfl, rfl⟩ := Prod.mk.inj (Option.some.inj he)
      exact ⟨rfl, rfl, conn, rfl, .inr ⟨lost, came, rfl, rfl, rfl⟩⟩

end

/-! ## what a `recv` hands out -/

section
variable {conn : Connection} {lost came : Nat}

theorem Connection.next_subset : ∀ x ∈ conn.next lost came, x ∈ conn.sent := by
  intro x hx
  have h1 := (List.dropWhile_sublist _).subset hx
  exact List.mem_of_mem_drop (List.mem_of_mem_take h1)

theorem Connection.recv_rest : ∀ x ∈ (conn.recv lost came).2, x ∈ conn.sent := by
  intro x hx
  have hlate : ∀ y ∈ conn.underWay lost came, y ∈ conn.sent := fun y hy =>
    List.mem_of_mem_drop (List.mem_of_mem_drop hy)
  unfold Connection.recv at hx
  split at hx
  · exact hlate x hx
  · rename_i n rest heq
    rcases List.mem_append.mp hx with hx | hx
    · exact conn.next_subset x (heq ▸ List.mem_cons_of_mem n hx)
    · exact hlate x hx

theorem Connection.recv_timedOut (h : (conn.recv 0 came).1 = .timedOut) {x : MqNotification}
    (hx : x ∈ conn.sent) (hchannel : x.channel = conn.listener.channel) :
    x ∈ conn.underWay 0 came := by
  unfold Connection.recv at h
  split at h
  · rename_i heq
    rw [← List.take_append_drop came conn.sent] at hx
    rcases List.mem_append.mp hx with hx | hx
    · have h1 := List.dropWhile_eq_nil_iff.mp heq x hx
      exact absurd hchannel (by simpa using h1)
    · exact hx
  · cases h

theorem Connection.recv_notified {n : MqNotification} (h : (conn.recv lost came).1 = .notified n) :
    n ∈ conn.sent ∧ n.channel = conn.listener.channel := by
  unfold Connection.recv at h
  split at h
  · cases h
  · rename_i m rest heq
    cases h
    have h1 := List.head?_dropWhile_not (fun n : MqNotification =>
      n.channel != conn.listener.channel)
      ((conn.sent.drop lost).take came)
    unfold Connection.next at heq
    rw [heq] at h1
    exact ⟨conn.next_subset n (heq ▸ List.mem_cons_self), by simpa using h1⟩

theorem Connection.recv_ne_failed : (conn.recv lost came).1 ≠ .failed := by
  unfold Connection.recv
  split
  · exact fun h => by cases h
  · exact fun h => by cases h

end

/-- what a statement is for the store -/
def NetStmt.said : (st : NetStmt) → st.Res → Option ((st : MqStmt) × st.Res)
  | .mq st, r => some ⟨st, r⟩
  | .connect _, _ => none
  | .recv _, _ => none

/-- the MQ store in the net, each call of which is one of the store -/
def mqPart {Op : Type} (call : Op → MqCall) : Part MqStmt.exec NetStmt.exec MqCall Op where
  get := MqNet.mq
  ctx := NetCtx.mq
  op := call
  said := NetStmt.said
  runs := by
    intro s c st net r net' hx
    cases st with
    | mq st =>
      obtain ⟨db, hdb, rfl⟩ := exec_net hx
      exact hdb
    | connect queueName => exact (exec_connect hx).1
    | recv wait => exact (exec_recv hx).1

abbrev NetProg := Prog NetStmt NetStmt.Res PgAppError

/-- a program of the store -/
def onNet {α : Type} (p : MqProg α) : NetProg α := p.lift NetStmt.mq fun _ r => r

def NetProg.query (st : NetStmt) : NetProg st.Res := Prog.call st

end PgApp
