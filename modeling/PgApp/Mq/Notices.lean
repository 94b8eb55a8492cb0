import PgApp.Mq.Listen

/-!
# What was sent to a listener

A notification is sent to a connection by the statement that ends its transaction, and belongs to it
until `recv` passes over it or hands it out, or until it is lost.  So after any run

* `Heard`     whatever was sent on its channel since the session last listened is in the connection;
* `Sourced`   whatever is in a connection was sent, on its channel.

`toldSince` reads off the history what was sent since a session's last `connect` or `recv`.
-/

namespace PgApp
open Interleave

/-- what a statement sends -/
def MqNet.notes (s : Nat) (net : MqNet) : (st : NetStmt) → st.Res → List MqNotification
  | .mq .commit, _ => (net.pending.get s).getD []
  | .mq (.pgNotify channel payload), .ok () =>
    match net.pending.get s with
    | some _ => []
    | none => [⟨channel, payload⟩]
  | _, _ => []

/-- the statements of a listener -/
def NetStmt.listens : NetStmt → Bool
  | .mq _ => false
  | .connect _ => true
  | .recv _ => true

section
variable {Op : Type}

def notesOf (e : Ev NetStmt NetStmt.Res Op NetCtx MqNet) : List MqNotification :=
  e.pre.notes e.sess e.stmt e.res

/-- what was sent since the session's last `connect` or `recv` -/
def toldSince (s : Nat) : List (Ev NetStmt NetStmt.Res Op NetCtx MqNet) → List MqNotification
  | [] => []
  | e :: h => if e.sess = s ∧ e.stmt.listens = true then [] else notesOf e ++ toldSince s h

/-- what was sent on a connection's channel since its session last listened was sent to it -/
def Heard (net : MqNet) (h : List (Ev NetStmt NetStmt.Res Op NetCtx MqNet)) : Prop :=
  ∀ s conn, net.listeners.get s = some conn → ∀ x ∈ toldSince s h,
    conn.listener.listening = x.channel → x ∈ conn.sent

/-- what was sent to a connection was sent on its channel -/
def Sourced (net : MqNet) (h : List (Ev NetStmt NetStmt.Res Op NetCtx MqNet)) : Prop :=
  ∀ s conn, net.listeners.get s = some conn → ∀ x ∈ conn.sent,
    conn.listener.listening = x.channel ∧ ∃ e ∈ h, x ∈ notesOf e

end

/-! ## the listeners after a statement -/

theorem MqNet.send_listeners (ns : List MqNotification) (net : MqNet) (s : Nat) :
    (net.send ns).listeners.get s = (net.listeners.get s).map (Connection.hear ns) :=
  Slots.get_map _ _ _

theorem Connection.hear_nil (c : Connection) : c.hear [] = c := by
  unfold Connection.hear
  rw [List.filter_nil, List.append_nil]

theorem MqNet.send_nil (net : MqNet) (s : Nat) :
    (net.send []).listeners.get s = net.listeners.get s := by
  rw [MqNet.send_listeners]
  cases net.listeners.get s with
  | none => rfl
  | some c => exact congrArg some c.hear_nil

theorem MqNet.told_listeners (s t : Nat) (net : MqNet) (st : MqStmt) (r : st.Res) :
    (net.told s st r).listeners.get t
      = (net.listeners.get t).map (Connection.hear (net.notes s (.mq st) r)) := by
  rw [← MqNet.send_listeners]
  cases st with
  | commit => rfl
  | pgNotify channel payload =>
    cases r with
    | error e => exact (net.send_nil t).symm
    | ok u =>
      show (net.notify s ⟨channel, payload⟩).listeners.get t = _
      unfold MqNet.notify MqNet.notes
      cases net.pending.get s with
      | none => rfl
      | some ns => exact (net.send_nil t).symm
  | _ => exact (net.send_nil t).symm

theorem exec_mq_listeners {s : Nat} {c : NetCtx} {st : MqStmt} {r : st.Res} {net net' : MqNet}
    (hx : NetStmt.exec s c (.mq st) net = some (r, net')) (t : Nat) :
    net'.listeners.get t = (net.listeners.get t).map
        (Connection.hear (net.notes s (.mq st) r)) := by
  obtain ⟨db, -, rfl⟩ := exec_net hx
  exact net.told_listeners s t st r

theorem exec_listens_other {s t : Nat} (ht : t ≠ s) {c : NetCtx} {st : NetStmt}
    (hst : st.listens = true) {r : st.Res} {net net' : MqNet}
    (hx : st.exec s c net = some (r, net')) : net'.listeners.get t = net.listeners.get t := by
  cases st with
  | mq st => cases hst
  | connect n =>
    obtain ⟨-, -, ⟨-, rfl⟩ | ⟨listener, -, -, h⟩⟩ := exec_connect hx
    · rfl
    · rw [h]
      exact Slots.get_set_ne _ _ ht
  | recv wait =>
    obtain ⟨-, -, conn, -, ⟨-, -, h⟩ | ⟨lost, came, -, -, h⟩⟩ := exec_recv hx
    · rw [h]
      exact Slots.get_erase_ne _ ht
    · rw [h]
      exact Slots.get_set_ne _ _ ht

theorem notes_listens {s : Nat} {net : MqNet} {st : NetStmt} (hst : st.listens = true)
    (r : st.Res) :
    net.notes s st r = [] := by
  cases st with
  | mq st => cases hst
  | connect n => rfl
  | recv wait => rfl

/-! ## in every run -/

section
variable {Op : Type} {net net' : MqNet} {h : List (Ev NetStmt NetStmt.Res Op NetCtx MqNet)}
variable {s : Nat} {op : Op} {c : NetCtx} {st : NetStmt} {r : st.Res}

theorem Heard.step (H : Heard net h) (hx : st.exec s c net = some (r, net')) :
    Heard net' (⟨s, op, c, st, r, net⟩ :: h) := by
  intro t conn hg x hx' hch
  unfold toldSince at hx'
  split at hx'
  · cases hx'
  · rename_i hno
    cases hst : st.listens with
    | true =>
      have hts : t ≠ s := fun he => hno ⟨he.symm, hst⟩
      rw [exec_listens_other hts hst hx] at hg
      have hn : notesOf (⟨s, op, c, st, r, net⟩ : Ev NetStmt NetStmt.Res Op NetCtx MqNet) = [] :=
        notes_listens hst r
      rw [hn] at hx'
      exact H t conn hg x hx' hch
    | false =>
      cases st with
      | connect n => cases hst
      | recv wait => cases hst
      | mq st =>
        rw [exec_mq_listeners hx] at hg
        obtain ⟨conn₀, hg₀, rfl⟩ := Option.map_eq_some_iff.mp hg
        rcases List.mem_append.mp hx' with hnew | hold
        · exact List.mem_append_right _ (List.mem_filter.mpr ⟨hnew, beq_iff_eq.mpr hch⟩)
        · exact List.mem_append_left _ (H t conn₀ hg₀ x hold hch)

theorem Sourced.step (H : Sourced net h) (hx : st.exec s c net = some (r, net')) :
    Sourced net' (⟨s, op, c, st, r, net⟩ :: h) := by
  intro t conn hg x hx'
  have hold : ∀ conn₀, net.listeners.get t = some conn₀ → conn.listener = conn₀.listener →
      x ∈ conn₀.sent → conn.listener.listening = x.channel ∧
        ∃ e ∈ (⟨s, op, c, st, r, net⟩ :: h : List (Ev NetStmt NetStmt.Res Op NetCtx MqNet)),
          x ∈ notesOf e := by
    intro conn₀ hg₀ hl hx₀
    obtain ⟨h1, e, he, h2⟩ := H t conn₀ hg₀ x hx₀
    exact ⟨hl ▸ h1, e, List.mem_cons_of_mem _ he, h2⟩
  cases st with
  | mq st =>
    rw [exec_mq_listeners hx] at hg
    obtain ⟨conn₀, hg₀, rfl⟩ := Option.map_eq_some_iff.mp hg
    rcases List.mem_append.mp hx' with hx' | hnew
    · exact hold conn₀ hg₀ rfl hx'
    · obtain ⟨h1, h2⟩ := List.mem_filter.mp hnew
      exact ⟨beq_iff_eq.mp h2, _, List.mem_cons_self, h1⟩
  | connect n =>
    by_cases hts : t = s
    · subst hts
      obtain ⟨-, -, ⟨-, rfl⟩ | ⟨listener, -, -, h1⟩⟩ := exec_connect hx
      · exact hold conn hg rfl hx'
      · rw [h1, Slots.get_set_self] at hg
        obtain rfl := Option.some.inj hg
        cases hx'
    · rw [exec_listens_other hts rfl hx] at hg
      exact hold conn hg rfl hx'
  | recv wait =>
    by_cases hts : t = s
    · subst hts
      obtain ⟨-, -, conn₀, hg₀, ⟨-, -, h1⟩ | ⟨lost, came, -, -, h1⟩⟩ := exec_recv hx
      · rw [h1, Slots.get_erase_self] at hg
        cases hg
      · rw [h1, Slots.get_set_self] at hg
        obtain rfl := Option.some.inj hg
        exact hold conn₀ hg₀ rfl (Connection.recv_rest x hx')
    · rw [exec_listens_other hts rfl hx] at hg
      exact hold conn hg rfl hx'

end

end PgApp
