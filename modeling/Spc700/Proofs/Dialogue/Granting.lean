import Spc700.Proofs.Dialogue.Exchange

/-!
# Buses that refuse nothing

On a bus that refuses nothing every dialogue comes to its end, so its exchanges, its result and
the host it leaves are functions of the host it found: `Dialogue.transcript`.

* `Bus.toBus_filled`: every bus that refuses nothing is a `GrantingBus`.
* `Dialogue.run_toBus`: the transcript is what a run on the bus does.
* `Dialogue.exists_refuses`: of a bus that grants less and answers alike where it grants, the
  refusal is found on the transcript.
-/

namespace Spc700

variable {ρ σ α β : Type}

/-- A bus that grants every access. -/
structure GrantingBus (σ : Type) where
  read : Word → σ → Byte × σ
  write : Word → Byte → σ → σ

namespace GrantingBus

/-- The bus that it is. -/
def toBus (g : GrantingBus σ) : Bus σ where
  read address host := (.ok (g.read address host).1, (g.read address host).2)
  write address value host := (.ok (), g.write address value host)

/-- The same bus, with a record of what went over it. -/
def recorded (g : GrantingBus σ) : GrantingBus (Recorded σ) where
  read address state :=
    ((g.read address state.host).1,
      Recorded.push (g.read address state.host).2 state.accesses .read address
        (some (g.read address state.host).1))
  write address value state :=
    Recorded.push (g.write address value state.host) state.accesses .write address (some value)

theorem toBus_recorded (g : GrantingBus σ) : g.recorded.toBus = g.toBus.recorded := rfl

/-- Where the other bus grants an access, this one gives the same answer and leaves the same
host. -/
structure Extends (g : GrantingBus σ) (bus : Bus σ) : Prop where
  read : ∀ {address : Word} {host host' : σ} {byte : Byte},
    bus.read address host = (.ok byte, host') → g.read address host = (byte, host')
  write : ∀ {address : Word} {value : Byte} {host host' : σ},
    bus.write address value host = (.ok (), host') → g.write address value host = host'

end GrantingBus

/-- Every access is granted, whatever the state of the host. -/
def Bus.GrantsEverything (bus : Bus σ) : Prop :=
  (∀ address host, ∃ byte host', bus.read address host = (.ok byte, host')) ∧
    ∀ address value host, ∃ host', bus.write address value host = (.ok (), host')

/-- Refused reads answered with zero and refused writes let pass. -/
def Bus.filled (bus : Bus σ) : GrantingBus σ where
  read address host :=
    match bus.read address host with
    | (.ok byte, host') => (byte, host')
    | (.error _, host') => (0, host')
  write address value host := (bus.write address value host).2

theorem Bus.extends_filled (bus : Bus σ) : bus.filled.Extends bus where
  read h := by simp only [filled, h]
  write h := by simp only [filled, h]

/-- A bus that refuses nothing is not changed by filling it. -/
theorem Bus.toBus_filled {bus : Bus σ} (h : bus.GrantsEverything) : bus.filled.toBus = bus := by
  obtain ⟨read, write⟩ := bus
  obtain ⟨hread, hwrite⟩ := h
  simp only [filled, GrantingBus.toBus, mk.injEq]
  constructor
  · funext address host
    obtain ⟨byte, host', h⟩ := hread address host
    have h' : read address host = (.ok byte, host') := h
    rw [h']
  · funext address value host
    obtain ⟨host', h⟩ := hwrite address value host
    have h' : write address value host = (.ok (), host') := h
    rw [h']

theorem Ram.grantsEverything : Ram.bus.GrantsEverything :=
  ⟨fun _ _ => ⟨_, _, rfl⟩, fun _ _ _ => ⟨_, rfl⟩⟩

/-- What passes when a dialogue is held with a bus that grants everything. -/
structure Transcript (ρ α σ : Type) where
  exchanges : List (Exchange ρ)
  result : α
  host : σ

namespace Dialogue

/-- The transcript of a dialogue held with a bus that grants everything. -/
def transcript (g : GrantingBus σ) : Dialogue ρ α → σ → Transcript ρ α σ
  | done result, host => { exchanges := [], result, host }
  | read now purpose address next, host =>
    let (byte, host) := g.read address host
    let rest := (next byte).transcript g host
    { rest with exchanges := { now, purpose, direction := .read, address, byte } :: rest.exchanges }
  | write now purpose address value next, host =>
    let rest := next.transcript g (g.write address value host)
    { rest with
      exchanges := { now, purpose, direction := .write, address, byte := value } :: rest.exchanges }

theorem admits_transcript (g : GrantingBus σ) (d : Dialogue ρ α) (host : σ) :
    d.Admits (d.transcript g host).exchanges (d.transcript g host).result := by
  induction d generalizing host with
  | done result => exact .done result
  | read now purpose address next ih => exact .read _ (ih _ _)
  | write now purpose address value next ih => exact .write (ih _)

theorem grantsAll_transcript (g : GrantingBus σ) (d : Dialogue ρ α) (host : σ) :
    g.toBus.GrantsAll (d.transcript g host).exchanges host (d.transcript g host).host := by
  induction d generalizing host with
  | done result => rfl
  | read now purpose address next ih => exact ⟨_, rfl, ih _ _⟩
  | write now purpose address value next ih => exact ⟨_, rfl, ih _⟩

/-- The transcript is what a run on the bus does. -/
theorem run_toBus (g : GrantingBus σ) (d : Dialogue ρ α) (host : σ) :
    d.run g.toBus host = (.ok (d.transcript g host).result, (d.transcript g host).host) :=
  run_of_grantsAll (admits_transcript g d host) (grantsAll_transcript g d host)

/-- **Where a bus refuses.** If a bus does not grant all exchanges of a dialogue, as they are on a
bus that answers alike and grants everything, then one of them is the first that it refuses, and
it has granted those before. -/
theorem exists_refuses {bus : Bus σ} {g : GrantingBus σ} (hg : g.Extends bus) {d : Dialogue ρ α}
    {host : σ} (h : ¬ ∃ host', bus.GrantsAll (d.transcript g host).exchanges host host') :
    ∃ before e after host₁ error host₂, (d.transcript g host).exchanges = before ++ e :: after ∧
      bus.GrantsAll before host host₁ ∧ bus.Refuses e host₁ error host₂ := by
  induction d generalizing host with
  | done result => exact absurd ⟨host, rfl⟩ h
  | read now purpose address next ih =>
    rcases hb : bus.read address host with ⟨error | byte, between⟩
    · exact ⟨[], _, _, host, error, between, rfl, rfl, hb⟩
    · -- The answer is that of `g`, so both go on with the same dialogue.
      let first : Exchange ρ := { now, purpose, direction := .read, address, byte }
      have hfirst : bus.Grants first host between := hb
      have hread := hg.read hb
      simp only [transcript, hread] at h ⊢
      obtain ⟨before, e, after, host₁, error, host₂, hes, hall, hr⟩ :=
        ih byte fun ⟨host', hrest⟩ => h ⟨host', between, hfirst, hrest⟩
      refine ⟨first :: before, e, after, host₁, error, host₂, ?_, ⟨between, hfirst, hall⟩, hr⟩
      rw [hes]
      rfl
  | write now purpose address value next ih =>
    rcases hb : bus.write address value host with ⟨error | u, between⟩
    · exact ⟨[], _, _, host, error, between, rfl, rfl, hb⟩
    · let first : Exchange ρ := { now, purpose, direction := .write, address, byte := value }
      have hfirst : bus.Grants first host between := hb
      have hwrite := hg.write hb
      simp only [transcript, hwrite] at h ⊢
      obtain ⟨before, e, after, host₁, error, host₂, hes, hall, hr⟩ :=
        ih fun ⟨host', hrest⟩ => h ⟨host', between, hfirst, hrest⟩
      refine ⟨first :: before, e, after, host₁, error, host₂, ?_, ⟨between, hfirst, hall⟩, hr⟩
      rw [hes]
      rfl

end Dialogue

end Spc700
