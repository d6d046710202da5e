import VineyardLoader.Net.Emissions

/-!
# How much the node sends

A frame is answered with at most one frame, and only if it is for this node. A turn of the loop
advertises at most once, and no more once the loader has been told to stop. So the frames that the
loop sends are bounded by the frames that it accepts and the turns that it takes, and after the
command to stop by the frames that it accepts alone (`netPollLoop_restrained`): then the node is
silent unless it is spoken to.
-/

set_option autoImplicit false

namespace VineyardLoader

/-! ## Counting -/

/-- How much was sent. -/
def NetState.sent (s : NetState) : Nat := s.transmissions.length

/-- Whether a turn receives a frame for this node. -/
def NetState.hears (s : NetState) (received : Option (Memory × Nat)) : Bool :=
  received.any fun frame => decide (Accepts s frame.1 frame.2)

/-- The loader does not advertise any more. -/
def PollState.hushed (s : PollState) : Bool := s.netAdvertised && s.net.netStopAdvertising

section Net

variable {fw : NetFirmware} {s t start : NetState}

theorem NetState.hears_congr (same : t.station = s.station) (received : Option (Memory × Nat)) :
    t.hears received = s.hears received := by
  cases received with
  | none => rfl
  | some frame => exact decide_eq_decide.mpr (accepts_congr same frame.1 frame.2)

theorem NetState.transmitted_sent (data len : Nat) :
    (s.transmitted fw data len).sent = s.sent + 1 :=
  congrArg List.length (NetState.transmitted_transmissions fw s data len)

/-- A datagram is at most one frame. -/
theorem netUdp6Send_sends (data : Memory) (len : Nat) (addr : Memory) (destPort sourcePort : Nat)
    (run : netUdp6Send fw data len addr destPort sourcePort s = .ok () t) : t.sent ≤ s.sent + 1 := by
  by_cases empty : s.ethBufpool = 0
  · rw [netUdp6Send_empty empty] at run
    cases run
    exact Nat.le_succ _
  cases found : s.resolve addr with
  | none =>
      rw [netUdp6Send_none empty found] at run
      cases run
      exact Nat.le_succ _
  | some mac =>
      rw [netUdp6Send_some empty found] at run
      cases run
      exact Nat.le_of_eq (NetState.transmitted_sent _ _)

/-- An ICMPv6 message is at most one frame. -/
theorem netIcmp6Send_sends {data : Net Memory} {source : Memory} (reads : Reads data source s)
    (length : Nat) (addr : Memory) (run : netIcmp6Send fw data length addr s = .ok () t) :
    t.sent ≤ s.sent + 1 := by
  by_cases empty : s.ethBufpool = 0
  · rw [netIcmp6Send_empty empty] at run
    cases run
    exact Nat.le_succ _
  by_cases long : 1460 < length
  · rw [netIcmp6Send_long empty data long] at run
    cases run
    exact Nat.le_succ _
  have short := Nat.not_lt.mp long
  cases found : s.resolve addr with
  | none =>
      rw [netIcmp6Send_none empty found data short] at run
      cases run
      exact Nat.le_succ _
  | some mac =>
      obtain ⟨noted, again⟩ := @netIcmp6Send_some fw s addr mac empty found data source reads length short
      rw [run] at again
      cases again
      exact Nat.le_of_eq (NetState.transmitted_sent _ _)

/-- A netboot message is at most one frame, also where the memory for it is not freed. -/
theorem netbootCmdSend_sends (cmd : Nat) (data : Option Memory) (dataLen : Nat) (s : NetState) :
    (finalState (netbootCmdSend fw cmd data dataLen s)).sent ≤ s.sent + 1 := by
  rcases @netbootCmdSend_cases fw cmd data dataLen s with refused | ⟨message, block, sends⟩
  · rw [refused]
    exact Nat.le_succ _
  · obtain ⟨⟨⟩, u, run⟩ := @netUdp6Send_returns fw message (16 + dataLen) s.messageAddress 57778 57777 s
    rw [sends, bind_of_ok run]
    have kept : Keeps NetState.sent (netFree fw block) := netFree_keeps block
    exact (kept u).le.trans (netUdp6Send_sends _ _ _ _ _ run)

/-- At most one frame was sent for each acknowledgement that was made. -/
def Tally (start s : NetState) : Prop := s.sent + start.acks.length ≤ start.sent + s.acks.length

theorem sendAck_tally (ack : Ack) :
    Preserves (fun s => Tally start s.outside) (fun s => Tally start s.outside) (sendAck fw ack) := by
  refine preserves_self_iff.mpr fun s tally => ?_
  have acks : (finalState (sendAck fw ack s)).acks = s.acks ++ [ack] :=
    congrArg NetState.acks (sendAck_core fw ack s)
  have sends : (finalState (sendAck fw ack s)).sent ≤ s.sent + 1 :=
    netbootCmdSend_sends cmdAck (some ack.encode) 16 { s with acks := s.acks ++ [ack] }
  have before : s.sent + start.acks.length ≤ start.sent + s.acks.length := tally
  show (finalState (sendAck fw ack s)).sent + start.acks.length ≤
    start.sent + (finalState (sendAck fw ack s)).acks.length
  rw [acks, List.length_append, List.length_singleton]
  omega

/-- A netboot message is answered with at most one frame. -/
theorem receiveMessage_sends (message : Memory) (run : receiveMessage fw message s = .ok () t) :
    t.sent ≤ s.sent + 1 := by
  have tally : Tally s t := (netbootCmdReceive_preserves (fun _ holds => holds) sendAck_tally
    (writeFile_preserves (fun _ holds => holds) fun _ _ _ holds => holds)
    { s with frame := message } (Nat.le_refl _)).1 () t run
  have once := (receiveMessage_outcome run).acks_length
  have : t.acks.length ≤ s.acks.length + 1 := once
  unfold Tally at tally
  omega

/-- An ICMPv6 message is answered with at most one frame. -/
theorem netIcmp6Receive_sends {len : Nat} (run : netIcmp6Receive fw 14 54 len s = .ok () t) :
    t.sent ≤ s.sent + 1 := by
  by_cases echo : s.frame.loadLE 54 1 = 128
  · obtain ⟨noted, again⟩ := @netIcmp6Receive_echo fw s echo len
    rw [run] at again
    have bound := netIcmp6Send_sends (reads_frameBytes 54 len _) _ _ again.symm
    exact bound
  by_cases solicitation : s.frame.loadLE 54 1 = 135
  · obtain ⟨noted, again⟩ := @netIcmp6Receive_solicitation fw s len solicitation
    rw [run] at again
    split at again
    · have bound := netIcmp6Send_sends (fun u _ => ⟨u.frameReads, rfl⟩) _ _ again.symm
      exact bound
    · cases again
      exact Nat.le_succ _
  · obtain ⟨noted, again⟩ := @netIcmp6Receive_other fw s len echo solicitation
    rw [run] at again
    cases again
    exact Nat.le_succ _

/-- A frame is answered with at most one frame, and with none if it is not for this node. -/
theorem netEthReceive_sends {len : Nat} {answer : Bool}
    (run : netEthReceive fw len s = .ok answer t) :
    t.sent ≤ s.sent + if Accepts s s.frame len then 1 else 0 := by
  by_cases accepts : Accepts s s.frame len
  · rw [if_pos accepts]
    obtain ⟨noted, same⟩ := @netEthReceive_accepted fw s len accepts
    rw [run] at same
    obtain ⟨⟨⟩, u, received, done⟩ := bind_eq_ok.mp same.symm
    cases done
    rw [receiveProtocol] at received
    split at received
    · rw [netUdp6Receive, bind_of_ok (frameLE_run _ _ _)] at received
      split at received
      · exact receiveMessage_sends (s := s.heard (⟨56, 2⟩ :: noted)) s.frame received
      · cases received
        exact Nat.le_succ _
    · split at received
      · have bound := netIcmp6Receive_sends received
        exact bound
      · cases received
        exact Nat.le_succ _
  · rw [if_neg accepts]
    obtain ⟨other, noted, same⟩ := @netEthReceive_rejected fw s len accepts
    rw [run] at same
    cases same
    exact Nat.le_refl _

end Net

/-! ## Turns -/

section Poll

variable {fw : PollFirmware} {s t : PollState} {turns : List PollFirmware} {ended : Bool}

/-- A turn advertises at most once, and not at all once the loader was told to stop. -/
theorem pollAdvertise_sends (run : pollAdvertise fw s = .ok () t) :
    t.net.sent ≤ s.net.sent + if s.hushed then 0 else 1 := by
  have timer : Keeps (fun s : PollState => s.net.sent) (netTimerSet fw) :=
    Keeps.get.bind fun _ => Keeps.ite (fun _ => Keeps.pure _) fun _ =>
      Keeps.ite (fun _ => Keeps.pure _) fun _ => Keeps.throw _
  have expires : Keeps id (netTimerExpired fw) :=
    Keeps.get.bind fun _ => Keeps.ite (fun _ => Keeps.pure _) fun _ => Keeps.pure _
  have advertises : ∀ {u : PollState}, liftNet (netAdvertise fw) s = .ok () u →
      u.net.sent ≤ s.net.sent + 1 := by
    intro u lifted
    have bound := @netbootCmdSend_sends fw.net cmdAdvertise none 0 s.net
    unfold liftNet at lifted
    cases inner : netAdvertise fw s.net with
    | ok value net =>
        rw [inner] at lifted
        cases lifted
        rwa [show netbootCmdSend fw.net cmdAdvertise none 0 s.net = _ from inner] at bound
    | error reason net =>
        rw [inner] at lifted
        cases lifted
  rw [pollAdvertise, bind_of_ok (get_run _)] at run
  split at run
  · rename_i fresh
    rw [if_neg (by simp [PollState.hushed] at fresh ⊢; simp [fresh.2])]
    obtain ⟨⟨⟩, sent, lifted, rest⟩ := bind_eq_ok.mp run
    obtain ⟨⟨⟩, set_, sets, done⟩ := bind_eq_ok.mp rest
    cases done
    exact (timer.ok sets).le.trans (advertises lifted)
  · obtain ⟨expired, same, asked, rest⟩ := bind_eq_ok.mp run
    obtain rfl : same = s := expires.ok asked
    split at rest
    · rename_i now
      rw [if_neg (by simp [PollState.hushed] at now ⊢; simp [now.2])]
      obtain ⟨⟨⟩, sent, lifted, sets⟩ := bind_eq_ok.mp rest
      exact (timer.ok sets).le.trans (advertises lifted)
    · cases rest
      exact Nat.le_add_right _ _

theorem pollBegin_sends {ready : Bool} (begun : pollBegin fw s = .ok ready t) :
    t.net.sent ≤ s.net.sent + if s.hushed then 0 else 1 := by
  have status : Keeps (fun s : PollState => s.net.sent) (pollStatus fw) := by
    refine Keeps.get.bind fun s => Keeps.ite (fun _ => ?_) fun _ => Keeps.pure _
    refine Keeps.ite (fun _ => Keeps.throw _) fun _ => ?_
    cases fw.getStatus s with
    | none => exact Keeps.pure _
    | some txBuf =>
        refine Keeps.bind (fun u => ?_) fun _ => Keeps.pure _
        exact congrArg (fun both => List.length (Prod.snd both)) (takeBack_sends txBuf u)
  obtain ⟨⟨⟩, advertised, advertise, rest⟩ := bind_eq_ok.mp begun
  exact (status.ok rest).le.trans (pollAdvertise_sends advertise)

/-- A turn sends at most its advertisement and the answer to its frame. -/
theorem netPoll_sends (run : netPoll fw s = .ok () t) :
    t.net.sent ≤ s.net.sent + (if s.hushed then 0 else 1) +
      if s.net.hears (receivedFrame fw s) then 1 else 0 := by
  have turn := netPoll_turn run
  generalize receivedFrame fw s = received at turn ⊢
  cases turn with
  | quiet begun => exact (pollBegin_sends begun).trans (Nat.le_add_right _ _)
  | @frame middle data size answer net begun handled =>
      have station : middle.net.station = s.net.station :=
        congrArg Prod.snd ((pollBegin_beyond fw).ok begun)
      have before := pollBegin_sends begun
      have after := netEthReceive_sends handled
      have hears : s.net.hears (some (data, size)) =
          decide (Accepts { middle.net with frame := data } data size) :=
        decide_eq_decide.mpr (accepts_congr station data size).symm
      rw [hears]
      simp only [decide_eq_true_eq]
      exact after.trans (Nat.add_le_add_right before _)

/-- A loader that was told to stop does not start to advertise again. -/
theorem netPoll_hushed (run : netPoll fw s = .ok () t) (hushed : s.hushed = true) :
    t.hushed = true := by
  have advertised : SurvivesTurns fw fun s => s.netAdvertised = true :=
    ⟨fun _ => ⟨fun _ _ _ here => here, fun _ _ _ _ here => here, fun _ _ _ _ _ _ _ here => here⟩,
      fun _ _ => rfl, fun s txBuf _ here => by
        have kept : Keeps PollState.netAdvertised (takeBack txBuf) :=
          takeBack_keeps (fun _ _ _ => rfl) (fun _ _ => rfl) txBuf
        exact (kept s).trans here⟩
  obtain ⟨already, stopped⟩ := (Bool.and_eq_true _ _).mp hushed
  have still : t.netAdvertised = true := (advertised.poll s already).1 () t run
  have stops : t.net.netStopAdvertising = (s.net.netStopAdvertising || _) :=
    Receiver.run_stopAdvertising (PollStep.steps ⟨fw, run, rfl⟩).1
  rw [PollState.hushed, still, stops, stopped]
  rfl

/-- **The loop sends no more than it is asked for.** Its frames are at most as many as the frames
that it accepts, and while the loader advertises, as many more as there are turns. -/
theorem netPollLoop_restrained (run : netPollLoop turns s = .ok ended t) :
    t.net.sent ≤ s.net.sent + (loopFrames turns s).countP s.net.hears +
      if s.hushed then 0 else (loopFrames turns s).length := by
  induction turns generalizing s with
  | nil =>
      cases run
      exact (Nat.le_add_right _ _).trans (Nat.le_add_right _ _)
  | cons fw turns ih =>
      cases continues : s.net.netPollContinue with
      | false =>
          obtain ⟨stopped, -⟩ := @netPollLoop_stopped (fw :: turns) s continues
          rw [run] at stopped
          cases stopped
          exact (Nat.le_add_right _ _).trans (Nat.le_add_right _ _)
      | true =>
          rw [netPollLoop_cons continues] at run
          obtain ⟨⟨⟩, middle, turn, rest⟩ := bind_eq_ok.mp run
          have station : middle.net.station = s.net.station := (PollStep.steps ⟨fw, turn, rfl⟩).2
          have hears : middle.net.hears = s.net.hears := funext (NetState.hears_congr station)
          have here := netPoll_sends turn
          have later := ih rest
          rw [hears] at later
          rw [loopFrames_cons continues turn, List.countP_cons, List.length_cons]
          cases hushed : s.hushed with
          | true =>
              rw [hushed] at here
              rw [netPoll_hushed turn hushed] at later
              simp only [if_true] at here later ⊢
              omega
          | false =>
              rw [hushed] at here
              have most : (if middle.hushed then 0 else (loopFrames turns middle).length) ≤
                  (loopFrames turns middle).length := by split <;> omega
              simp only [Bool.false_eq_true, if_false] at here ⊢
              omega

/-- The sample sends six frames: it accepts six and takes eight turns. -/
theorem netPollLoop_restrained_sample :
    (finalState (netPollLoop sampleTurns samplePollReady)).net.sent = 6 ∧
      (finalState (netPollLoop sampleTurns samplePollReady)).net.sent ≤ 6 + 8 := by
  have run := ok_of_value
    (by decide +kernel : returnedValue (netPollLoop sampleTurns samplePollReady) = some true)
  exact ⟨by decide +kernel, netPollLoop_restrained run⟩

end Poll

end VineyardLoader
