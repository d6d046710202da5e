import VineyardLoader.Net.Poll
import VineyardLoader.Net.Wire

/-!
# Turns of the polling loop

A turn of `net_poll` may send an advertisement and take a transmit buffer back. Then it receives a
frame, if the driver has one, and handles it. The first two leave the receiver of messages and the
addresses of the node alone (`pollBegin_beyond`), so a turn does what the message does that its
frame carries, if it carries one (`PollStep.steps`).

Over a run of turns, the receiver sees the messages of the frames in their order and nothing else
(`pollRun_steps`).
-/

set_option autoImplicit false

namespace VineyardLoader

/-! ## One turn -/

section Definitions

variable (fw : PollFirmware)

/-- A turn up to the call of `Receive`: whether it gets there. -/
def pollBegin : Poll Bool := do
  pollAdvertise fw
  pollStatus fw

/-- The frame that a turn receives, with its length. -/
def receivedFrame (s : PollState) : Option (Memory × Nat) :=
  match pollBegin fw s with
  | .ok true middle =>
      match fw.receive middle with
      | .frame data size => some (data, size)
      | .notReady => none
      | .failed => none
  | _ => none

/-- The netboot messages in what a turn receives. -/
def NetState.messages (s : NetState) (received : Option (Memory × Nat)) : List Memory :=
  (received.bind fun frame => s.message? frame.1 frame.2).toList

theorem NetState.messages_congr {s t : NetState} (same : t.station = s.station)
    (received : Option (Memory × Nat)) : t.messages received = s.messages received := by
  cases received with
  | none => rfl
  | some frame => exact congrArg Option.toList (NetState.message?_congr same _ _)

/-- A turn of the loop that returns, with the frame that it receives. -/
def PollStep (s : PollState) (received : Option (Memory × Nat)) (t : PollState) : Prop :=
  ∃ fw, netPoll fw s = .ok () t ∧ receivedFrame fw s = received

end Definitions

section Turn

variable {fw : PollFirmware} {s t : PollState} {received : Option (Memory × Nat)}

theorem netPoll_eq (fw : PollFirmware) (s : PollState) :
    netPoll fw s = (do if ← pollBegin fw then pollReceive fw) s := by
  rw [netPoll, pollBegin, bind_run, bind_run, bind_run]
  cases pollAdvertise fw s with
  | ok value middle => rfl
  | error reason middle => rfl

/-- What a turn that returns is made of. -/
inductive PollTurn (fw : PollFirmware) (s : PollState) : Option (Memory × Nat) → PollState → Prop
  /-- `GetStatus` fails, or there is no frame. -/
  | quiet {ready : Bool} {t : PollState} (begun : pollBegin fw s = .ok ready t) :
      PollTurn fw s none t
  /-- A frame is handled. -/
  | frame {middle : PollState} {data : Memory} {size : Nat} {answer : Bool} {net : NetState}
      (begun : pollBegin fw s = .ok true middle)
      (handled : netEthReceive fw.net size { middle.net with frame := data } = .ok answer net) :
      PollTurn fw s (some (data, size)) { middle with net := net }

theorem netPoll_turn (run : netPoll fw s = .ok () t) : PollTurn fw s (receivedFrame fw s) t := by
  rw [netPoll_eq] at run
  obtain ⟨ready, middle, begun, rest⟩ := bind_eq_ok.mp run
  cases ready with
  | false =>
      cases rest
      have nothing : receivedFrame fw s = none := by rw [receivedFrame, begun]
      rw [nothing]
      exact .quiet begun
  | true =>
      simp only [if_true] at rest
      rw [pollReceive, bind_of_ok (get_run _)] at rest
      split at rest
      · cases rest
      cases answer : fw.receive middle with
      | frame data size =>
          rw [answer] at rest
          simp only [bind_of_ok (modify_run _ _)] at rest
          obtain ⟨taken, last, lifted, done⟩ := bind_eq_ok.mp rest
          cases done
          unfold liftNet at lifted
          cases handled : netEthReceive fw.net size { middle.net with frame := data } with
          | ok value net =>
              rw [handled] at lifted
              have here : receivedFrame fw s = some (data, size) := by
                simp only [receivedFrame, begun, answer]
              rw [here]
              obtain ⟨⟩ := lifted
              exact @PollTurn.frame fw s middle data size taken net begun handled
          | error reason net =>
              rw [handled] at lifted
              cases lifted
      | notReady =>
          rw [answer] at rest
          cases rest
          have nothing : receivedFrame fw s = none := by simp only [receivedFrame, begun, answer]
          rw [nothing]
          exact .quiet begun
      | failed =>
          rw [answer] at rest
          cases rest

theorem liftNet_returns {α : Type} {program : Net α} (returns : Returns program) :
    Returns (liftNet program) := by
  intro s
  obtain ⟨value, net, run⟩ := returns s.net
  exact ⟨value, { s with net := net }, by rw [liftNet, run]⟩

theorem takeBack_returns (txBuf : Nat) : Returns (takeBack txBuf) := by
  refine Returns.get.bind fun _ => Returns.ite (fun _ => ?_) fun _ => Returns.pure _
  refine Returns.ite (fun _ => (Returns.modify _).bind fun _ => ?_) fun _ => Returns.pure _
  exact liftNet_returns (Returns.modify _)

section Begin

variable {π : Type} {part : PollState → π}
  (ofCore : ∀ (s : PollState) (net : NetState), net.core = s.net.core →
    part { s with net := net } = part s)
  (ofAdvertised : ∀ (s : PollState) (flag : Bool), part { s with netAdvertised := flag } = part s)
  (ofHandedBack : ∀ (s : PollState) (buffers : List Nat),
    part { s with handedBack := buffers } = part s)

include ofCore

/-- In the loop, a send of the network code leaves alone what is no transmit buffer. -/
theorem liftNet_keeps {α : Type} {program : Net α} (keeps : Keeps NetState.core program) :
    Keeps part (liftNet program) := by
  intro s
  unfold liftNet
  cases run : program s.net with
  | ok value net => exact ofCore s net (keeps.ok run)
  | error reason net => exact ofCore s net (keeps.error run)

include ofAdvertised in
theorem pollAdvertise_keeps : Keeps part (pollAdvertise fw) := by
  have advertises : Keeps part (liftNet (netAdvertise fw)) :=
    liftNet_keeps ofCore (netbootCmdSend_keeps _ _ _)
  have timer : Keeps part (netTimerSet fw) :=
    Keeps.get.bind fun _ => Keeps.ite (fun _ => Keeps.pure _) fun _ =>
      Keeps.ite (fun _ => Keeps.pure _) fun _ => Keeps.throw _
  have expired : Keeps part (netTimerExpired fw) :=
    Keeps.get.bind fun _ => Keeps.ite (fun _ => Keeps.pure _) fun _ => Keeps.pure _
  refine Keeps.get.bind fun _ => Keeps.ite (fun _ => ?_) fun _ => expired.bind fun _ => ?_
  · exact advertises.bind fun _ => timer.bind fun _ => Keeps.modify fun s => ofAdvertised s true
  · exact Keeps.ite (fun _ => advertises.bind fun _ => timer) fun _ => Keeps.pure _

include ofHandedBack in
theorem takeBack_keeps (txBuf : Nat) : Keeps part (takeBack txBuf) := by
  refine Keeps.get.bind fun _ => Keeps.ite (fun _ => ?_) fun _ => Keeps.pure _
  refine Keeps.ite (fun _ => ?_) fun _ => Keeps.pure _
  refine Keeps.bind (Keeps.modify fun s => ofHandedBack s _) fun _ => ?_
  exact liftNet_keeps ofCore (netBufpoolReturn_keeps _)

include ofHandedBack in
theorem pollStatus_keeps : Keeps part (pollStatus fw) := by
  refine Keeps.get.bind fun s => Keeps.ite (fun _ => ?_) fun _ => Keeps.pure _
  refine Keeps.ite (fun _ => Keeps.throw _) fun _ => ?_
  cases fw.getStatus s with
  | none => exact Keeps.pure _
  | some txBuf => exact (takeBack_keeps ofCore ofHandedBack txBuf).bind fun _ => Keeps.pure _

include ofAdvertised ofHandedBack in
theorem pollBegin_keeps : Keeps part (pollBegin fw) :=
  (pollAdvertise_keeps ofCore ofAdvertised).bind fun _ => pollStatus_keeps ofCore ofHandedBack

end Begin

/-- What a turn has not changed when it calls `Receive`. -/
theorem pollBegin_beyond (fw : PollFirmware) :
    Keeps (fun s : PollState => s.net.beyondIcmp) (pollBegin fw) := by
  refine pollBegin_keeps (fun s net same => ?_) (fun _ _ => rfl) fun _ _ => rfl
  have parts := congrArg NetState.beyondIcmp same
  exact parts

/-- **A turn does what its message does**, and the addresses of the node stay. -/
theorem PollStep.steps (step : PollStep s received t) :
    Run Receiver.Step s.net.receiver (s.net.messages received) t.net.receiver ∧
      t.net.station = s.net.station := by
  obtain ⟨fw, run, rfl⟩ := step
  have turn := netPoll_turn run
  generalize receivedFrame fw s = received at turn ⊢
  cases turn with
  | quiet begun =>
      have kept := (pollBegin_beyond fw).ok begun
      have receiver : t.net.receiver = s.net.receiver := congrArg Prod.fst kept
      rw [receiver]
      exact ⟨.nil _, congrArg Prod.snd kept⟩
  | @frame middle data size answer net begun handled =>
      have kept := (pollBegin_beyond fw).ok begun
      have receiver : middle.net.receiver = s.net.receiver := congrArg Prod.fst kept
      have station : middle.net.station = s.net.station := congrArg Prod.snd kept
      obtain ⟨steps, same⟩ := netEthReceive_steps handled
      have message : NetState.message? { middle.net with frame := data } data size =
          s.net.message? data size := NetState.message?_congr station data size
      rw [message] at steps
      refine ⟨?_, same.trans station⟩
      rw [← receiver]
      exact steps

/-- What a turn received, if anything, is handled as the firmware of the turn answers. -/
theorem netPoll_outcome {message : Memory} (run : netPoll fw s = .ok () t)
    (carries : s.net.messages (receivedFrame fw s) = [message]) :
    Outcome fw.net message s.net.progress t.net.progress := by
  have turn := netPoll_turn run
  generalize receivedFrame fw s = received at turn carries
  cases turn with
  | quiet begun => cases carries
  | @frame middle data size answer net begun handled =>
      have kept := (pollBegin_beyond fw).ok begun
      have station : middle.net.station = s.net.station := congrArg Prod.snd kept
      have here : NetState.message? { middle.net with frame := data } data size = some message := by
        rw [show NetState.message? { middle.net with frame := data } data size =
          s.net.message? data size from NetState.message?_congr station data size]
        exact Option.toList_eq_singleton_iff.mp carries
      obtain ⟨noted, same⟩ :=
        @netEthReceive_netboot fw.net { middle.net with frame := data } size message here
      rw [handled] at same
      obtain ⟨⟨⟩, after, received, done⟩ := bind_eq_ok.mp same.symm
      cases done
      have progress : middle.net.progress = s.net.progress :=
        congrArg (fun both : Receiver × (Memory × Memory × Memory) => both.1.transfer) kept
      have outcome := receiveMessage_outcome received
      rwa [show NetState.progress (NetState.heard { middle.net with frame := data } noted) =
        s.net.progress from progress] at outcome

end Turn

/-! ## Runs -/

section Runs

variable {s t : PollState} {frames : List (Option (Memory × Nat))}

/-- No turn changes the addresses of the node. -/
theorem pollRun_station (run : Run PollStep s frames t) : t.net.station = s.net.station := by
  refine run.relates (fun first last => last.net.station = first.net.station) (fun _ => rfl) ?_ ?_
  · intro first middle last here later
    exact later.trans here
  · exact fun _ _ _ step => step.steps.2

/-- The receiver sees the messages of the frames and nothing else. -/
theorem pollRun_steps (run : Run PollStep s frames t) :
    Run Receiver.Step s.net.receiver (frames.flatMap s.net.messages) t.net.receiver := by
  have matched : ∀ state received next receiver, PollStep state received next →
      (receiver = state.net.receiver ∧ state.net.station = s.net.station) →
      ∃ result, Run Receiver.Step receiver (s.net.messages received) result ∧
        (result = next.net.receiver ∧ next.net.station = s.net.station) := by
    rintro state received next receiver step ⟨rfl, station⟩
    obtain ⟨steps, same⟩ := step.steps
    refine ⟨next.net.receiver, ?_, rfl, same.trans station⟩
    rwa [NetState.messages_congr station] at steps
  obtain ⟨result, steps, rfl, -⟩ := run.simulates
    (fun state receiver => receiver = state.net.receiver ∧ state.net.station = s.net.station)
    s.net.messages matched ⟨rfl, rfl⟩
  exact steps

end Runs

end VineyardLoader
