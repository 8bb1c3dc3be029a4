import ByteMachine.Proofs.Engine.Image
import ByteMachine.Proofs.Engine.Repetition
import ByteMachine.Proofs.Instruction.Listing

/-!
# Running what is listed

A listing cuts an image into instructions from its first byte on, and the engine reads
instructions wherever the instruction pointer happens to be.  The two agree as long as
a run stays on the listing: no instruction changes a cell of the image, what is jumped
to is listed, and the next instruction starts in the image.

* `Engine.StaysOn` — a step that does none of these;
* `Engine.Follows` — what a run that starts with an image reaches by such steps;
* `Engine.OnListing` — the invariant: the image is in memory and the instruction pointer
  is at an offset of the listing;
* `Engine.fetches_listed` — on such a run the engine fetches what is listed, and does
  not fail to decode.

A jump to a listed offset keeps the invariant by assumption.  What falls through keeps
it because the offset behind an instruction is listed too, unless the image ends there;
and if it ends at the end of memory, the next address is that of the first instruction.
-/

namespace ByteMachine

/-- A fault of bytes that are no instruction. -/
def Fault.OfDecoding : Fault → Prop
  | .invalidInstruction _ _ | .invalidRegisterIndex _ => True
  | _ => False

/-! ## Offsets of a listing -/

/-- An image that is not empty is listed from its first byte on. -/
theorem isSome_lookup_zero {image : Image} {listing : List (Nat × Instruction)}
    (hlisting : disassemble image.bytes = .ok listing) (hsize : 0 < image.size) :
    (listing.lookup 0).isSome := by
  obtain ⟨instructions, hformed, hbytes, rfl⟩ := disassemble_eq_ok.mp hlisting
  cases instructions with
  | nil =>
      rw [Image.size, hbytes] at hsize
      exact absurd hsize (Nat.lt_irrefl 0)
  | cons first rest => rfl

/-- A listed instruction ends in the image, and the code in front of it and behind it is
that of other instructions. -/
theorem exists_code_of_lookup {image : Image} {listing : List (Nat × Instruction)}
    (hlisting : disassemble image.bytes = .ok listing) {offset : Nat}
    {instruction : Instruction} (hlookup : listing.lookup offset = some instruction) :
    instruction.WellFormed ∧ offset + instruction.length ≤ image.size ∧
      ∃ front back, image.bytes = front ++ (instruction.encode ++ back) ∧
        offset = front.length := by
  obtain ⟨instructions, hformed, hbytes, rfl⟩ := disassemble_eq_ok.mp hlisting
  obtain ⟨front, back, rfl, rfl⟩ := (lookup_placeFrom hformed).mp hlookup
  have hown := hformed instruction (by simp)
  have hsplit : image.bytes = codeOf front ++ (instruction.encode ++ codeOf back) := by
    rw [hbytes, codeOf_append, codeOf_cons]
  have hlength := Instruction.length_encode hown
  refine ⟨hown, ?_, codeOf front, codeOf back, hsplit, Nat.zero_add _⟩
  rw [Image.size, hsplit, List.length_append, List.length_append, hlength]
  omega

/-- The offset behind a listed instruction is listed, or the image ends there. -/
theorem isSome_lookup_behind {image : Image} {listing : List (Nat × Instruction)}
    (hlisting : disassemble image.bytes = .ok listing) {offset : Nat}
    {instruction : Instruction} (hlookup : listing.lookup offset = some instruction) :
    (listing.lookup (offset + instruction.length)).isSome ∨
      offset + instruction.length = image.size := by
  obtain ⟨instructions, hformed, hbytes, rfl⟩ := disassemble_eq_ok.mp hlisting
  obtain ⟨front, back, rfl, rfl⟩ := (lookup_placeFrom hformed).mp hlookup
  have hlength := Instruction.length_encode (hformed instruction (by simp))
  have hbehind : 0 + (codeOf front).length + instruction.length =
      0 + (codeOf (front ++ [instruction])).length := by
    rw [codeOf_append, codeOf_cons, List.length_append, List.length_append, hlength,
      Nat.add_assoc]
    rfl
  rw [hbehind]
  cases back with
  | nil =>
      right
      rw [Image.size, hbytes, Nat.zero_add]
  | cons next back =>
      left
      have hnext : (placeFrom 0 (front ++ instruction :: next :: back)).lookup
          (0 + (codeOf (front ++ [instruction])).length) = some next :=
        (lookup_placeFrom hformed).mpr ⟨front ++ [instruction], back, by simp, rfl⟩
      exact Option.isSome_of_eq_some hnext

namespace Engine

variable {σ : Type}

/-! ## Staying on a listing -/

/-- What holds on a listing: the image is in memory, and the instruction pointer is at
an offset that is listed. -/
structure OnListing (image : Image) (listing : List (Nat × Instruction))
    (engine : Engine σ) : Prop where
  holds : ∀ position, position < image.size → engine.machine.Holds image position
  listed : (listing.lookup engine.machine.ip.toNat).isSome

/-- On a listing the instruction that is listed at the instruction pointer decodes. -/
theorem OnListing.decodes {image : Image} {listing : List (Nat × Instruction)}
    {engine : Engine σ} (h : OnListing image listing engine)
    (hlisting : disassemble image.bytes = .ok listing) :
    ∃ instruction, listing.lookup engine.machine.ip.toNat = some instruction ∧
      engine.Decodes instruction := by
  obtain ⟨instruction, hlookup⟩ := Option.isSome_iff_exists.mp h.listed
  obtain ⟨hformed, hroom, front, back, hbytes, hip⟩ :=
    exists_code_of_lookup hlisting hlookup
  refine ⟨instruction, hlookup, decodes_of_holds hformed hbytes hip ?_⟩
  intro k hk
  exact h.holds _ (by omega)

variable [Console σ]

/-- The operation of the instruction at the instruction pointer succeeds and changes
the instruction pointer. -/
def Moves (engine : Engine σ) : Prop :=
  ∃ instruction session, engine.Decodes instruction ∧
    execute instruction.operation instruction.operands
      (engine.onLast instruction.opcode).session = .ok () session ∧
    session.machine.ip ≠ engine.lastAddress instruction.opcode

/-- A step that changes no cell of the image, moves the instruction pointer to listed
offsets only and ends inside the image. -/
structure StaysOn (image : Image) (listing : List (Nat × Instruction))
    (engine next : Engine σ) : Prop where
  step : Step engine .running next
  cells : ∀ position, position < image.size →
    next.machine.read (UInt8.ofNat position) = engine.machine.read (UInt8.ofNat position)
  target : engine.Moves → next.machine.ip.toNat ∈ listing.map Prod.fst
  inside : next.machine.ip.toNat < image.size

/-- The engines on the way of a run that starts with an image that is not empty, as
long as it stays on the listing. -/
inductive Follows (image : Image) (listing : List (Nat × Instruction))
    (engine : Engine σ) : Engine σ → Prop
  | start (hinside : 0 < image.size) : Follows image listing engine (engine.load image)
  | step {current next : Engine σ} (hcurrent : Follows image listing engine current)
      (hstays : StaysOn image listing current next) : Follows image listing engine next

/-- A step that stays on the listing does not leave it. -/
theorem OnListing.step {image : Image} {listing : List (Nat × Instruction)}
    {engine next : Engine σ} (h : OnListing image listing engine)
    (hlisting : disassemble image.bytes = .ok listing)
    (hstays : StaysOn image listing engine next) : OnListing image listing next := by
  refine ⟨?_, ?_⟩
  · intro position hposition
    rw [Machine.Holds, hstays.cells position hposition]
    exact h.holds position hposition
  · obtain ⟨instruction, hlookup, hown⟩ := h.decodes hlisting
    have hinside := hstays.inside
    cases hstays.step with
    | @fallsThrough other session hdecode hhalt hallows hexecute hip =>
        obtain rfl := eq_of_decodes hown hdecode
        have haddress := engine.toNat_lastAddress_add_one instruction
        have hfits : image.size ≤ 256 := image.fits
        rw [machine, Machine.ip_jumpTo, haddress] at hinside ⊢
        rcases isSome_lookup_behind hlisting hlookup with hnext | hend
        · obtain ⟨next, hnextLookup⟩ := Option.isSome_iff_exists.mp hnext
          obtain ⟨-, hroom, -⟩ := exists_code_of_lookup hlisting hnextLookup
          have hpositive := next.length_pos
          rw [Nat.mod_eq_of_lt (by omega)]
          exact hnext
        · -- The image ends here, so it must be as large as memory.
          rw [hend] at hinside ⊢
          have hwhole : image.size = 256 := by
            by_contra hless
            rw [Nat.mod_eq_of_lt (by omega)] at hinside
            exact Nat.lt_irrefl _ hinside
          rw [hwhole]
          exact isSome_lookup_zero hlisting (by omega)
    | @jumps other session hdecode hhalt hallows hexecute hip =>
        have hmember := hstays.target ⟨other, session, hdecode, hexecute, hip⟩
        obtain ⟨entry, hentry, hoffset⟩ := List.mem_map.mp hmember
        rw [List.lookup_isSome_iff]
        exact ⟨entry, hentry, beq_iff_eq.mpr hoffset.symm⟩

/-! ## Runs on a listing -/

/-- A run that stays on the listing keeps the invariant. -/
theorem onListing_of_follows {image : Image} {listing : List (Nat × Instruction)}
    (hlisting : disassemble image.bytes = .ok listing) {engine current : Engine σ}
    (h : Follows image listing engine current) : OnListing image listing current := by
  induction h with
  | start hinside =>
      refine ⟨?_, isSome_lookup_zero hlisting hinside⟩
      intro position hposition
      exact Machine.holds_load _ hposition
  | step hcurrent hstays ih => exact ih.step hlisting hstays

/-- Where an instruction decodes, a step that fails does not fail to decode, unless the
console says so. -/
theorem consoleFails_of_decoding {engine final : Engine σ} {instruction : Instruction}
    {fault : Fault} (hdecode : engine.Decodes instruction)
    (h : Step engine (.failed fault) final) (hfault : fault.OfDecoding) :
    ConsoleFails σ fault := by
  cases h with
  | unknown hopcode => exact absurd hdecode (not_decodes_of_unknown hopcode instruction)
  | badSymbol hopcode hindex =>
      exact absurd hdecode (not_decodes_of_badSymbol hopcode hindex instruction)
  | refused hother hhalt hlimit hused => exact absurd hfault id
  | fails hother hhalt hallows hfailure hexecute =>
      cases hfailure with
      | operation hoperation =>
          cases fault with
          | invalidInstruction | invalidRegisterIndex => exact absurd hoperation id
          | _ => exact absurd hfault id
      | input hinput => exact ⟨_, _, .inl hinput⟩
      | output houtput => exact ⟨_, _, .inr ⟨_, houtput⟩⟩

/-- **The engine runs what is listed.**  Load an image that disassembles and run it.  As
long as the run stays on the listing, the engine fetches the instruction that is listed
at the instruction pointer, and a turn does not fail for want of an instruction. -/
theorem fetches_listed {image : Image} {listing : List (Nat × Instruction)}
    (hlisting : disassemble image.bytes = .ok listing) {engine current : Engine σ}
    (h : Follows image listing engine current) :
    (∃ instruction, listing.lookup current.machine.ip.toNat = some instruction ∧
      (fetch current.machine.ip current.machine []).1 = .ok instruction) ∧
    ∀ events fault, (current.turn events).verdict = .failed fault → fault.OfDecoding →
      ConsoleFails σ fault := by
  obtain ⟨instruction, hlookup, hdecode⟩ :=
    (onListing_of_follows hlisting h).decodes hlisting
  refine ⟨⟨instruction, hlookup, ?_⟩, ?_⟩
  · rw [fetch_of_decodes hdecode]
  · intro events fault hverdict hfault
    have hstep := step_turn current events
    rw [hverdict] at hstep
    exact consoleFails_of_decoding hdecode hstep hfault

/-- A loop that pushes a value behind the image and jumps back to its start. -/
theorem fetches_listed_loop :
    let image : Image := ⟨[77, 7, 1, 97, 1, 83, 0], by decide⟩
    ∃ listing current, disassemble image.bytes = .ok listing ∧
      Follows image listing (start (Script.start [] none) ⟨false, none⟩) current ∧
      current.budget.used = 3 ∧
      ∃ instruction, listing.lookup current.machine.ip.toNat = some instruction ∧
        (fetch current.machine.ip current.machine []).1 = .ok instruction := by
  intro image
  let listing : List (Nat × Instruction) :=
    [(0, ⟨⟨77, by decide⟩, [.immediate 7, .symbol (.register .b)]⟩),
      (3, ⟨⟨97, by decide⟩, [.symbol (.register .b)]⟩), (5, ⟨⟨83, by decide⟩, [.immediate 0]⟩)]
  have hlisting : disassemble image.bytes = .ok listing := by decide +kernel
  let next : Engine Script → Engine Script := fun current => (current.turn #[]).engine
  have hstep : ∀ current : Engine Script, (current.turn #[]).verdict = .running →
      Step current .running (next current) := by
    intro current hrunning
    have hturn := step_turn current #[]
    rwa [hrunning] at hturn
  let first := (start (Script.start [] none) ⟨false, none⟩).load image
  have hmov : StaysOn image listing first (next first) :=
    ⟨hstep _ (by decide +kernel), by decide +kernel, fun _ => by decide +kernel,
      by decide +kernel⟩
  have hpush : StaysOn image listing (next first) (next (next first)) :=
    ⟨hstep _ (by decide +kernel), by decide +kernel, fun _ => by decide +kernel,
      by decide +kernel⟩
  have hjmp : StaysOn image listing (next (next first)) (next (next (next first))) :=
    ⟨hstep _ (by decide +kernel), by decide +kernel, fun _ => by decide +kernel,
      by decide +kernel⟩
  have hfollows := Follows.step (.step (.step (.start (by decide)) hmov) hpush) hjmp
  exact ⟨listing, _, hlisting, hfollows, by decide +kernel,
    (fetches_listed hlisting hfollows).1⟩

end Engine

end ByteMachine
