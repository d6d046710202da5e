import VineyardLoader.Net.Pool
import VineyardLoader.Net.Turns

/-!
# The loop of the network boot

`net_kernel_load` polls as long as it is not told to stop. The driver answers anew in every turn,
so the loop runs on a list of answers, one for each turn that it may take.

To an observer of the receiver, the loop is the list of the netboot messages for this node that
arrive, whatever arrives beside them, and however often it advertises or takes buffers back
(`netPollLoop_refines`). It ends with the first message that ends the polling, and it takes no turn
after it (`netPollLoop_ends`). It resets the machine only on the command of its last message
(`netPollLoop_reset`).
-/

set_option autoImplicit false

namespace VineyardLoader

/-! ## The loop -/

/-- The loop of `net_kernel_load`, for as many turns as there are answers of the firmware. It
returns whether it has ended. -/
def netPollLoop : List PollFirmware → Poll Bool
  | [] => do return !(← get).net.netPollContinue
  | fw :: turns => do
      if (← get).net.netPollContinue then
        netPoll fw
        netPollLoop turns
      else return true

/-- What the turns of the loop receive. -/
def loopFrames : List PollFirmware → PollState → List (Option (Memory × Nat))
  | [], _ => []
  | fw :: turns, s =>
      if s.net.netPollContinue then
        receivedFrame fw s ::
          match netPoll fw s with
          | .ok _ t => loopFrames turns t
          | .error _ _ => []
      else []

/-- The netboot messages for this node that the loop receives. -/
def loopMessages (turns : List PollFirmware) (s : PollState) : List Memory :=
  (loopFrames turns s).flatMap s.net.messages

/-- The frame of a netboot message on its way to this node. -/
def sampleOnWire (message : Memory) : Memory :=
  message.overwrite 0 62 fun index =>
    (packetFrame (fun _ => 2) (fun _ => 4) (fun _ => 0xFC) (fun _ => 0xFE) 17
      [0xE1, 0xB2, 0xE1, 0xB1, 0, 8, 0, 0]).getD index 0

/-- A turn that receives a frame. -/
def sampleTurn (frame : Memory) (size : Nat) : PollFirmware :=
  { samplePollFirmware with receive := fun _ => .frame frame size }

/-- A file is sent with its second fragment first, and then the command to boot. In between arrive
nothing, an echo request and an empty frame. -/
def sampleTurns : List PollFirmware :=
  [samplePollFirmware, sampleTurn (sampleOnWire (initFrame 3 2 2 [0x61, 0])) 200,
    sampleTurn (sampleOnWire (fragmentFrame 1 [9])) 100,
    sampleTurn (sampleMessage [128, 0, 0, 0, 1, 2, 3, 4]) 62,
    sampleTurn (sampleOnWire (fragmentFrame 0 [7, 8])) 100, sampleTurn (fun _ => 0) 60,
    sampleTurn (sampleOnWire (fragmentFrame 1 [9])) 100,
    sampleTurn (sampleOnWire (messageFrame cmdBoot [])) 78]

/-- The messages among them. -/
def sampleMessages : List Memory :=
  [sampleOnWire (initFrame 3 2 2 [0x61, 0]), sampleOnWire (fragmentFrame 1 [9]),
    sampleOnWire (fragmentFrame 0 [7, 8]), sampleOnWire (fragmentFrame 1 [9]),
    sampleOnWire (messageFrame cmdBoot [])]

section Loop

variable {fw : PollFirmware} {turns : List PollFirmware} {s t middle : PollState} {ended : Bool}

theorem netPollLoop_cons (continues : s.net.netPollContinue = true) :
    netPollLoop (fw :: turns) s = (do netPoll fw; netPollLoop turns) s := by
  rw [netPollLoop, bind_of_ok (get_run s), if_pos continues]

theorem netPollLoop_stopped (stopped : s.net.netPollContinue = false) :
    netPollLoop turns s = .ok true s ∧ loopFrames turns s = [] := by
  cases turns with
  | nil => exact ⟨by rw [netPollLoop, bind_of_ok (get_run s), stopped]; rfl, rfl⟩
  | cons fw turns =>
      have no : ¬ s.net.netPollContinue = true := by rw [stopped]; decide
      exact ⟨by rw [netPollLoop, bind_of_ok (get_run s), if_neg no]; rfl, if_neg no⟩

theorem loopFrames_cons (continues : s.net.netPollContinue = true)
    (turn : netPoll fw s = .ok () middle) :
    loopFrames (fw :: turns) s = receivedFrame fw s :: loopFrames turns middle := by
  rw [loopFrames, if_pos continues, turn]

theorem loopFrames_stop {reason : Halt} (continues : s.net.netPollContinue = true)
    (turn : netPoll fw s = .error reason middle) :
    loopFrames (fw :: turns) s = [receivedFrame fw s] := by
  rw [loopFrames, if_pos continues, turn]

/-- The loop is a run of its turns. -/
theorem netPollLoop_run (run : netPollLoop turns s = .ok ended t) :
    Run PollStep s (loopFrames turns s) t ∧ ended = !t.net.netPollContinue := by
  induction turns generalizing s with
  | nil =>
      cases run
      exact ⟨.nil _, rfl⟩
  | cons fw turns ih =>
      cases continues : s.net.netPollContinue with
      | false =>
          obtain ⟨stopped, nothing⟩ := @netPollLoop_stopped (fw :: turns) s continues
          rw [run] at stopped
          cases stopped
          rw [nothing, continues]
          exact ⟨.nil _, rfl⟩
      | true =>
          rw [netPollLoop_cons continues] at run
          obtain ⟨⟨⟩, middle, turn, rest⟩ := bind_eq_ok.mp run
          obtain ⟨later, ends⟩ := ih rest
          rw [loopFrames_cons continues turn]
          exact ⟨.cons ⟨fw, turn, rfl⟩ later, ends⟩

/-- The messages of a loop are those of its first turn and those of the others. -/
theorem loopMessages_cons (continues : s.net.netPollContinue = true)
    (turn : netPoll fw s = .ok () middle) :
    loopMessages (fw :: turns) s =
      s.net.messages (receivedFrame fw s) ++ loopMessages turns middle := by
  have station : middle.net.station = s.net.station := (PollStep.steps ⟨fw, turn, rfl⟩).2
  rw [loopMessages, loopFrames_cons continues turn, List.flatMap_cons, loopMessages]
  exact congrArg _ (List.flatMap_congr fun received _ =>
    NetState.messages_congr station.symm received)

/-- **The loop refines the receiver.** Whatever frames arrive, the receiver takes exactly the steps
of the netboot messages for this node in their order, and the addresses of the node stay. -/
theorem netPollLoop_refines (run : netPollLoop turns s = .ok ended t) :
    Run Receiver.Step s.net.receiver (loopMessages turns s) t.net.receiver ∧
      t.net.station = s.net.station :=
  ⟨pollRun_steps (netPollLoop_run run).1, pollRun_station (netPollLoop_run run).1⟩

theorem netPollLoop_refines_sample :
    ∃ t, netPollLoop sampleTurns samplePollStart = .ok true t ∧
      Run Receiver.Step samplePollStart.net.receiver sampleMessages t.net.receiver := by
  have run := ok_of_value
    (by decide +kernel : returnedValue (netPollLoop sampleTurns samplePollStart) = some true)
  exact ⟨_, run, (netPollLoop_refines run).1⟩

/-! ## The end of the loop -/

/-- Whether a turn receives a message that ends the polling. -/
def NetState.Ends (s : NetState) (received : Option (Memory × Nat)) : Prop :=
  ∃ message ∈ s.messages received, endsPolling message = true

theorem NetState.Ends.congr {s t : NetState} (same : t.station = s.station)
    (received : Option (Memory × Nat)) : t.Ends received ↔ s.Ends received := by
  rw [NetState.Ends, NetState.Ends, NetState.messages_congr same]

/-- The polling goes on until a message ends it. -/
theorem Receiver.run_pollContinue {first last : Receiver} {messages : List Memory}
    (steps : Run Receiver.Step first messages last) :
    last.pollContinue = (first.pollContinue && !messages.any endsPolling) := by
  induction steps with
  | nil => simp
  | cons here _ ih => rw [ih, here.pollContinue, List.any_cons, Bool.not_or, Bool.and_assoc]

/-- The advertisements stop once a message stops them. -/
theorem Receiver.run_stopAdvertising {first last : Receiver} {messages : List Memory}
    (steps : Run Receiver.Step first messages last) :
    last.stopAdvertising = (first.stopAdvertising || messages.any stopsAdvertising) := by
  induction steps with
  | nil => simp
  | cons here _ ih => rw [ih, here.stopAdvertising, List.any_cons, Bool.or_assoc]

/-- A turn goes on polling unless it receives a message that ends it. -/
theorem netPoll_ends (continues : s.net.netPollContinue = true) (turn : netPoll fw s = .ok () t) :
    t.net.netPollContinue = false ↔ s.net.Ends (receivedFrame fw s) := by
  have steps := (PollStep.steps ⟨fw, turn, rfl⟩).1
  have flag : t.net.netPollContinue =
      (s.net.netPollContinue && !(s.net.messages (receivedFrame fw s)).any endsPolling) :=
    Receiver.run_pollContinue steps
  rw [flag, continues, NetState.Ends, Bool.true_and, Bool.not_eq_false', List.any_eq_true]

/-- **The loop ends with the first message that ends the polling.** It takes no turn after it, and
without one it takes all of its turns. -/
theorem netPollLoop_ends (continues : s.net.netPollContinue = true)
    (run : netPollLoop turns s = .ok ended t) :
    (ended = true ↔ ∃ received ∈ loopFrames turns s, s.net.Ends received) ∧
      (∀ earlier received later, loopFrames turns s = earlier ++ received :: later →
        s.net.Ends received → later = []) ∧
      (ended = false → (loopFrames turns s).length = turns.length) := by
  induction turns generalizing s with
  | nil =>
      cases run
      rw [continues]
      refine ⟨by simp [loopFrames], fun earlier received later split => ?_, fun _ => rfl⟩
      exact absurd split.symm (List.append_ne_nil_of_right_ne_nil _ (List.cons_ne_nil _ _))
  | cons fw turns ih =>
      rw [netPollLoop_cons continues] at run
      obtain ⟨⟨⟩, middle, turn, rest⟩ := bind_eq_ok.mp run
      have station : middle.net.station = s.net.station := (PollStep.steps ⟨fw, turn, rfl⟩).2
      have same := NetState.Ends.congr station
      have ends := netPoll_ends continues turn
      rw [loopFrames_cons continues turn]
      cases goes : middle.net.netPollContinue with
      | false =>
          obtain ⟨stopped, nothing⟩ := @netPollLoop_stopped turns middle goes
          rw [rest] at stopped
          cases stopped
          rw [nothing]
          refine ⟨iff_of_true rfl ⟨_, List.mem_singleton_self _, ends.mp goes⟩, ?_, nofun⟩
          intro earlier received later split _
          cases earlier with
          | nil => exact (List.cons.inj split).2.symm
          | cons first earlier =>
              have nothing := (List.cons.inj split).2.symm
              exact absurd nothing (List.append_ne_nil_of_right_ne_nil _ (List.cons_ne_nil _ _))
      | true =>
          have here : ¬ s.net.Ends (receivedFrame fw s) := fun now => by
            rw [ends.mpr now] at goes
            cases goes
          obtain ⟨whether, last, all⟩ := ih goes rest
          simp only [same] at whether last
          refine ⟨?_, ?_, fun still => congrArg (· + 1) (all still)⟩
          · rw [whether]
            simp [here]
          · intro earlier received later split now
            cases earlier with
            | nil => exact absurd ((List.cons.inj split).1 ▸ now) here
            | cons first earlier => exact last earlier received later (List.cons.inj split).2 now

theorem netPollLoop_ends_sample :
    ∃ received ∈ loopFrames sampleTurns samplePollStart, samplePollStart.net.Ends received := by
  have run := ok_of_value
    (by decide +kernel : returnedValue (netPollLoop sampleTurns samplePollStart) = some true)
  exact (netPollLoop_ends rfl run).1.mp rfl

/-! ## Resets -/

theorem liftNet_avoids {α : Type} {reason : Halt} {program : Net α} (avoids : Avoids reason program) :
    Avoids reason (liftNet program) := by
  intro s stopped run
  unfold liftNet at run
  cases here : program s.net with
  | ok value net =>
      rw [here] at run
      cases run
  | error why net =>
      rw [here] at run
      cases run
      exact avoids _ _ here

/-- No turn resets the machine before it calls `Receive`. -/
theorem pollBegin_avoids (fw : PollFirmware) : Avoids Halt.reset (pollBegin fw) := by
  have advertises : Avoids Halt.reset (liftNet (netAdvertise fw)) :=
    liftNet_avoids (netbootCmdSend_avoids _ _ _)
  have timer : Avoids Halt.reset (netTimerSet fw) :=
    Avoids.get.bind fun _ => Avoids.ite (fun _ => Avoids.pure _) fun _ =>
      Avoids.ite (fun _ => Avoids.pure _) fun _ => Avoids.throw (by decide)
  have expired : Avoids Halt.reset (netTimerExpired fw) :=
    Avoids.get.bind fun _ => Avoids.ite (fun _ => Avoids.pure _) fun _ => Avoids.pure _
  have takes : ∀ txBuf, Avoids Halt.reset (takeBack txBuf) := by
    intro txBuf
    refine Avoids.get.bind fun _ => Avoids.ite (fun _ => ?_) fun _ => Avoids.pure _
    refine Avoids.ite (fun _ => (Avoids.modify _).bind fun _ => ?_) fun _ => Avoids.pure _
    exact liftNet_avoids (Avoids.modify _)
  refine Avoids.bind ?_ fun _ => ?_
  · refine Avoids.get.bind fun _ => Avoids.ite (fun _ => ?_) fun _ => expired.bind fun _ => ?_
    · exact advertises.bind fun _ => timer.bind fun _ => Avoids.modify _
    · exact Avoids.ite (fun _ => advertises.bind fun _ => timer) fun _ => Avoids.pure _
  · refine Avoids.get.bind fun s => Avoids.ite (fun _ => ?_) fun _ => Avoids.pure _
    refine Avoids.ite (fun _ => Avoids.throw (by decide)) fun _ => ?_
    cases fw.getStatus s with
    | none => exact Avoids.pure _
    | some txBuf => exact (takes txBuf).bind fun _ => Avoids.pure _

theorem netEthReceive_reset {net : NetFirmware} {before after : NetState} {len : Nat}
    (run : netEthReceive net len before = .error .reset after) :
    ∃ message, before.message? before.frame len = some message ∧ mayReset message = true := by
  cases carries : before.message? before.frame len with
  | none =>
      obtain ⟨answer, last, returns, -⟩ := @netEthReceive_other net before len carries
      rw [run] at returns
      cases returns
  | some message =>
      obtain ⟨noted, handled⟩ := @netEthReceive_netboot net before len message carries
      rw [run] at handled
      rcases bind_eq_error.mp handled.symm with stopped | ⟨_, _, _, stopped⟩
      · exact ⟨message, rfl, receiveMessage_reset stopped⟩
      · cases stopped

theorem netPoll_reset (run : netPoll fw s = .error .reset t) :
    ∃ message, s.net.messages (receivedFrame fw s) = [message] ∧ mayReset message = true := by
  rw [netPoll_eq] at run
  rcases bind_eq_error.mp run with stopped | ⟨ready, middle, begun, rest⟩
  · exact absurd stopped (pollBegin_avoids fw _ _)
  cases ready with
  | false => cases rest
  | true =>
      simp only [if_true] at rest
      rw [pollReceive, bind_of_ok (get_run _)] at rest
      split at rest
      · cases rest
      cases answer : fw.receive middle with
      | frame data size =>
          rw [answer] at rest
          simp only [bind_of_ok (modify_run _ _)] at rest
          have here : receivedFrame fw s = some (data, size) := by
            simp only [receivedFrame, begun, answer]
          have station : middle.net.station = s.net.station :=
            congrArg Prod.snd ((pollBegin_beyond fw).ok begun)
          rcases bind_eq_error.mp rest with stopped | ⟨_, _, _, stopped⟩
          · unfold liftNet at stopped
            cases handled : netEthReceive fw.net size { middle.net with frame := data } with
            | ok value net =>
                rw [handled] at stopped
                cases stopped
            | error reason net =>
                rw [handled] at stopped
                obtain ⟨⟩ := stopped
                obtain ⟨message, carries, resets⟩ := netEthReceive_reset handled
                have same : NetState.message? { middle.net with frame := data } data size =
                    s.net.message? data size := NetState.message?_congr station data size
                refine ⟨message, ?_, resets⟩
                rw [here, NetState.messages, Option.bind_some, ← same, carries]
                rfl
          · cases stopped
      | notReady =>
          rw [answer] at rest
          cases rest
      | failed =>
          rw [answer] at rest
          cases rest

/-- **The loop resets the machine only on command**: the last turn receives one of the commands
that may do so. -/
theorem netPollLoop_reset (run : netPollLoop turns s = .error .reset t) :
    ∃ earlier received message, loopFrames turns s = earlier ++ [received] ∧
      s.net.messages received = [message] ∧ mayReset message = true := by
  induction turns generalizing s with
  | nil => cases run
  | cons fw turns ih =>
      cases continues : s.net.netPollContinue with
      | false =>
          obtain ⟨stopped, -⟩ := @netPollLoop_stopped (fw :: turns) s continues
          rw [run] at stopped
          cases stopped
      | true =>
          rw [netPollLoop_cons continues] at run
          rcases bind_eq_error.mp run with stopped | ⟨⟨⟩, middle, turn, rest⟩
          · obtain ⟨message, carries, resets⟩ := netPoll_reset stopped
            exact ⟨[], _, message, loopFrames_stop continues stopped, carries, resets⟩
          · obtain ⟨earlier, received, message, split, carries, resets⟩ := ih rest
            have station : middle.net.station = s.net.station := (PollStep.steps ⟨fw, turn, rfl⟩).2
            refine ⟨receivedFrame fw s :: earlier, received, message, ?_, ?_, resets⟩
            · rw [loopFrames_cons continues turn, split, List.cons_append]
            · rw [← carries]
              exact NetState.messages_congr station.symm received

theorem netPollLoop_reset_sample :
    ∃ earlier received message,
      loopFrames [samplePollFirmware, sampleTurn (sampleOnWire (messageFrame cmdReboot [])) 78,
        samplePollFirmware] samplePollStart = earlier ++ [received] ∧
      samplePollStart.net.messages received = [message] ∧ mayReset message = true := by
  have run := error_of_reason (by decide +kernel : stopReason (netPollLoop [samplePollFirmware,
    sampleTurn (sampleOnWire (messageFrame cmdReboot [])) 78, samplePollFirmware] samplePollStart) =
      some .reset)
  exact netPollLoop_reset run

end Loop

end VineyardLoader
