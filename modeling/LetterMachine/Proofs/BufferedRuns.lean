import LetterMachine.BufferedOutput
import LetterMachine.Proofs.BoundedOutput

/-!
# Runs on a buffered device

A device that takes everything shows through the buffer before it: what has been written is either
given out or still held back, in the order in which it was written, and no writing fails.  So a run
cannot tell such a device from a buffer of unlimited room, and when the bytes held back are flushed
at its end, everything has come out that it has written.
-/

namespace LetterMachine

/-- As long as a device is good, it takes and gives out everything, and stays good. -/
structure Device.Reliable {ο : Type} [Device ο] (good : ο → Prop) : Prop where
  put : ∀ device bytes, good device → ∃ device', Device.put bytes device = (.ok (), device') ∧
    good device' ∧ Device.output device' = Device.output device ++ bytes
  flush : ∀ device, good device → ∃ device', Device.flush device = (.ok (), device') ∧
    good device' ∧ Device.output device' = Device.output device

/-- A buffer of unlimited room is reliable. -/
theorem OutputBuffer.reliable :
    Device.Reliable fun buffer : OutputBuffer => buffer.room? = none where
  put buffer bytes hroom := by
    refine ⟨buffer.append bytes, ?_, room?_append_of_unlimited hroom bytes,
      written_append bytes buffer⟩
    simp only [Device.put, hroom]
  flush buffer hroom := ⟨buffer, rfl, hroom, rfl⟩

namespace BufferedOutput

variable {ο : Type}

@[simp]
theorem held_hold (bytes : List UInt8) (buffer : BufferedOutput ο) :
    (buffer.hold bytes).held = buffer.held ++ bytes := by
  simp [held, hold, List.reverseAux_eq]

variable [Device ο]

/-- All that has been written: what has come out, and what is held back. -/
def written (buffer : BufferedOutput ο) : List UInt8 :=
  buffer.output ++ buffer.held

@[simp]
theorem written_hold (bytes : List UInt8) (buffer : BufferedOutput ο) :
    (buffer.hold bytes).written = buffer.written ++ bytes := by
  rw [written, held_hold, ← List.append_assoc]
  rfl

@[simp]
theorem written_ofDevice (device : ο) : (ofDevice device).written = Device.output device :=
  List.append_nil _

section Reliable

variable {good : ο → Prop} (hreliable : Device.Reliable good) {buffer : BufferedOutput ο}
  (hgood : good buffer.device)

include hreliable hgood

theorem exists_drain : ∃ device, buffer.drain = (.ok (), .ofDevice device) ∧ good device ∧
    Device.output device = buffer.written := by
  obtain ⟨device, hput, hstill, houtput⟩ := hreliable.put buffer.device buffer.held hgood
  refine ⟨device, ?_, hstill, houtput⟩
  simp only [drain, hput]

theorem exists_pass (bytes : List UInt8) (hheld : buffer.held = []) :
    ∃ buffer', buffer.pass bytes = (.ok (), buffer') ∧ good buffer'.device ∧
      buffer'.written = buffer.written ++ bytes := by
  obtain ⟨device, hput, hstill, houtput⟩ := hreliable.put buffer.device bytes hgood
  refine ⟨{ buffer with device := device }, ?_, hstill, ?_⟩
  · simp only [pass, hput]
    rfl
  · change Device.output device ++ buffer.held = Device.output buffer.device ++ buffer.held ++ bytes
    rw [houtput, hheld, List.append_nil, List.append_nil]

/-- What is written to a reliable device comes behind what has been written before. -/
theorem exists_write (bytes : List UInt8) :
    ∃ buffer', buffer.write bytes = (.ok (), buffer') ∧ good buffer'.device ∧
      buffer'.written = buffer.written ++ bytes := by
  obtain ⟨device, hdrain, hdrained, houtput⟩ := exists_drain hreliable hgood
  have hempty := (written_ofDevice device).trans houtput
  rw [write]
  split
  next => exact ⟨_, rfl, hgood, written_hold bytes buffer⟩
  next hspare =>
    by_cases hroom : capacity - buffer.count < bytes.length
    · -- The bytes held back are given to the device before these ones.
      simp only [hroom, if_true, hdrain]
      split
      next => exact ⟨_, rfl, hdrained, hempty ▸ written_hold bytes (ofDevice device)⟩
      next =>
        have hnone : (ofDevice device).held = [] := rfl
        obtain ⟨buffer', hpass, hstill, hpassed⟩ := exists_pass hreliable hdrained bytes hnone
        exact ⟨buffer', hpass, hstill, hempty ▸ hpassed⟩
    · -- The bytes just fill the buffer.  Too many to be held back come only with nothing held back.
      simp only [hroom, if_false]
      split
      next => exact ⟨_, rfl, hgood, written_hold bytes buffer⟩
      next hlarge =>
        have hheld : buffer.held = [] := by
          have hcount := buffer.count_eq
          have hlength : buffer.reversed.length = 0 := by
            unfold capacity at *
            omega
          rw [held, List.length_eq_zero_iff.mp hlength, List.reverse_nil]
        exact exists_pass hreliable hgood bytes hheld

theorem exists_flush : ∃ buffer', buffer.flush = (.ok (), buffer') ∧
    buffer'.output = buffer.written := by
  obtain ⟨device, hdrain, hdrained, houtput⟩ := exists_drain hreliable hgood
  obtain ⟨device', hflush, -, houtput'⟩ := hreliable.flush device hdrained
  refine ⟨.ofDevice device', ?_, houtput'.trans houtput⟩
  simp only [flush, hdrain, ofDevice, hflush]

end Reliable

/-- What has been written behind the first `count` bytes, in a buffer of unlimited room. -/
def writtenFrom (count : Nat) (buffer : BufferedOutput ο) : OutputBuffer where
  reversed := (buffer.written.drop count).reverse

end BufferedOutput

namespace Run

open BufferedOutput Workspace

variable {ι ο : Type} [Source ι] [Device ο] {good : ο → Prop} {program : Program}
  {run : Run ι (BufferedOutput ο)}

/-- What a run writes to a good device comes behind what there is, and leaves the device good. -/
theorem good_after (hreliable : Device.Reliable good) (program : Program)
    (hgood : good run.workspace.output.device) (count : Nat) :
    good (run.after program count).workspace.output.device ∧
      run.workspace.output.written <+: (run.after program count).workspace.output.written := by
  induction count with
  | zero => exact ⟨hgood, List.prefix_rfl⟩
  | succ count ih =>
      rw [after_succ]
      cases output_next_or_prints program (run.after program count) with
      | inl hsame => rwa [hsame]
      | inr hprints =>
          obtain ⟨form, bytes, hprints⟩ := hprints
          obtain ⟨buffer, hwrite, hstill, hwritten⟩ := exists_write hreliable ih.1 bytes
          have houtput : Sink.write bytes (run.after program count).workspace.output = _ := hwrite
          rw [hprints.output_next, houtput, hwritten]
          exact ⟨hstill, ih.2.trans (List.prefix_append _ _)⟩

/-- **A run does not see a reliable device.** -/
theorem after_writtenFrom (hreliable : Device.Reliable good) (program : Program)
    (hgood : good run.workspace.output.device) (count : Nat) :
    (run.changed (.ofOutput (writtenFrom run.workspace.output.written.length))).after program
        count =
      (run.after program count).changed
        (.ofOutput (writtenFrom run.workspace.output.written.length)) := by
  apply after_changed
  intro earlier _ instruction _ _
  apply unseen_ofOutput
  intro bytes _
  obtain ⟨hstill, hbefore⟩ := good_after hreliable program hgood earlier
  obtain ⟨buffer, hwrite, -, hwritten⟩ := exists_write hreliable hstill bytes
  have houtput : Sink.write bytes (run.after program earlier).workspace.output = _ := hwrite
  rw [houtput, Prod.map_apply, id, writtenFrom, writtenFrom, hwritten,
    List.drop_append_of_le_length hbefore.length_le]
  simp [Sink.write, OutputBuffer.write, OutputBuffer.append, List.reverseAux_eq]

section Start

variable (machine : Machine) (input : ι) {stdout : ο}

/-- A run on a reliable device is the run on a buffer of unlimited room: the same in all but the
sink, and with the same bytes written. -/
structure SameOnBuffer (stdout : ο) (buffered : Run ι (BufferedOutput ο))
    (plain : Run ι OutputBuffer) : Prop where
  machine_eq : buffered.machine = plain.machine
  input_eq : buffered.workspace.input = plain.workspace.input
  status_eq : buffered.status = plain.status
  written_eq : buffered.workspace.output.written =
    Device.output stdout ++ plain.workspace.output.written

theorem sameOnBuffer (hreliable : Device.Reliable good) (hgood : good stdout) (count : Nat) :
    SameOnBuffer stdout
      ((machine.start input (ofDevice stdout)).after program count)
      ((machine.start input ({} : OutputBuffer)).after program count) := by
  let start := machine.start input (ofDevice stdout)
  have hwritten : start.workspace.output.written = Device.output stdout := written_ofDevice stdout
  have hstart : start.changed (.ofOutput (writtenFrom start.workspace.output.written.length)) =
      machine.start input {} := by
    simp only [changed, Change.apply, Change.ofOutput, writtenFrom, List.drop_length]
    rfl
  have hgood' : good start.workspace.output.device := hgood
  have hafter := after_writtenFrom hreliable program hgood' count
  have hbefore := (good_after hreliable program hgood' count).2
  rw [hstart] at hafter
  rw [hafter]
  refine ⟨rfl, rfl, rfl, ?_⟩
  rw [← hwritten]
  obtain ⟨more, hmore⟩ := hbefore
  change _ = _ ++ OutputBuffer.written (writtenFrom _ _)
  rw [writtenFrom, OutputBuffer.written, List.reverse_reverse, ← hmore, List.drop_left]

end Start

end Run

end LetterMachine
