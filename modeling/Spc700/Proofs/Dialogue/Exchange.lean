import Spc700.Bus.Dialogue

/-!
# Exchanges

A dialogue is a tree, and one way through it is a list of exchanges: which access was asked for,
in which state of the asking side, and which byte went over the bus. `Dialogue.Admits` says that a
list is a complete way through; no bus is named in it. A bus comes in only by `Bus.GrantsAll` and
`Bus.Refuses`, which say what it does with a list.

* `Dialogue.every_iff`: `Dialogue.Every`, which is computed along the tree, speaks of all ways
  through it.
* `Dialogue.run_of_grantsAll`, `Dialogue.run_of_refuses`, `Dialogue.run_cases`: a dialogue held with
  a bus either goes a whole way, all of it granted, or is cut at the first exchange refused.
* `Bus.recorded_grantsAll`, `Bus.recorded_refuses`: what a record shows of either.
-/

namespace Spc700

variable {ρ σ α β : Type}

/-- One access of a dialogue with the byte that goes over the bus for it. `now` is the state of
the asking side when it asks. -/
structure Exchange (ρ : Type) where
  now : ρ
  purpose : Purpose
  direction : Direction
  address : Word
  byte : Byte

/-- The exchange in a record, granted. -/
def Exchange.granted (e : Exchange ρ) : Access :=
  { direction := e.direction, address := e.address, value := some e.byte }

/-- The exchange in a record, refused: no byte went over the bus. -/
def Exchange.refused (e : Exchange ρ) : Access :=
  { direction := e.direction, address := e.address, value := none }

/-! ## What a bus does with exchanges -/

namespace Bus

/-- Asked for the exchange's access, the bus grants it with the exchange's byte. -/
def Grants (bus : Bus σ) (e : Exchange ρ) (host host' : σ) : Prop :=
  match e.direction with
  | .read => bus.read e.address host = (.ok e.byte, host')
  | .write => bus.write e.address e.byte host = (.ok (), host')

/-- Asked for the exchange's access, the bus refuses it. -/
def Refuses (bus : Bus σ) (e : Exchange ρ) (host : σ) (error : BusError) (host' : σ) : Prop :=
  match e.direction with
  | .read => bus.read e.address host = (.error error, host')
  | .write => bus.write e.address e.byte host = (.error error, host')

/-- The bus grants the exchanges one after the other. -/
def GrantsAll (bus : Bus σ) : List (Exchange ρ) → σ → σ → Prop
  | [], host, host' => host' = host
  | e :: es, host, host' => ∃ between, bus.Grants e host between ∧ bus.GrantsAll es between host'

/-- A record of granted exchanges is the record before it and those exchanges. -/
theorem recorded_grantsAll (bus : Bus σ) (es : List (Exchange ρ)) {host host' : σ}
    (accesses : Array Access) (h : bus.GrantsAll es host host') :
    bus.recorded.GrantsAll es { host, accesses }
      { host := host', accesses := accesses ++ (es.map Exchange.granted).toArray } := by
  induction es generalizing host accesses with
  | nil =>
    obtain rfl : host' = host := h
    simp [GrantsAll]
  | cons e es ih =>
    obtain ⟨between, hfirst, hrest⟩ := h
    refine ⟨{ host := between, accesses := accesses.push e.granted }, ?_, ?_⟩
    · unfold Grants at hfirst ⊢
      split at hfirst <;> rename_i hd <;>
        simp [recorded, hfirst, Recorded.push, Exchange.granted, hd]
    · have hpush := ih (accesses.push e.granted) hrest
      simpa using hpush

/-- A refused exchange stands in the record without a byte. -/
theorem recorded_refuses (bus : Bus σ) {e : Exchange ρ} {host host' : σ} {error : BusError}
    (accesses : Array Access) (h : bus.Refuses e host error host') :
    bus.recorded.Refuses e { host, accesses } error
      { host := host', accesses := accesses.push e.refused } := by
  unfold Refuses at h ⊢
  split at h <;> rename_i hd <;> simp [recorded, h, Recorded.push, Exchange.refused, hd]

end Bus

namespace Dialogue

/-! ## The ways through a dialogue -/

/-- The exchanges are a complete way through the dialogue, which yields the result at its end. -/
inductive Admits : Dialogue ρ α → List (Exchange ρ) → α → Prop where
  | done (result : α) : Admits (.done result) [] result
  | read {now : ρ} {purpose : Purpose} {address : Word} {next : Byte → Dialogue ρ α}
      {es : List (Exchange ρ)} {result : α} (byte : Byte) : Admits (next byte) es result →
      Admits (.read now purpose address next)
        ({ now, purpose, direction := .read, address, byte } :: es) result
  | write {now : ρ} {purpose : Purpose} {address : Word} {value : Byte} {next : Dialogue ρ α}
      {es : List (Exchange ρ)} {result : α} : Admits next es result →
      Admits (.write now purpose address value next)
        ({ now, purpose, direction := .write, address, byte := value } :: es) result

/-- Every complete way through the dialogue satisfies `Q`, with what it yields. -/
def Every (Q : List (Exchange ρ) → α → Prop) : Dialogue ρ α → Prop
  | done result => Q [] result
  | read now purpose address next => ∀ byte, (next byte).Every fun es result =>
      Q ({ now, purpose, direction := .read, address, byte } :: es) result
  | write now purpose address value next => next.Every fun es result =>
      Q ({ now, purpose, direction := .write, address, byte := value } :: es) result

theorem every_iff {Q : List (Exchange ρ) → α → Prop} {d : Dialogue ρ α} :
    d.Every Q ↔ ∀ es result, d.Admits es result → Q es result := by
  -- `Q` is general in the induction: an exchange is dealt with by putting it in front of the list
  -- that `Q` is asked about.
  induction d generalizing Q with
  | done result =>
    constructor
    · intro h es result hd
      cases hd
      exact h
    · intro h
      exact h [] result (.done result)
  | read now purpose address next ih =>
    constructor
    · intro h es result hd
      cases hd with
      | read byte hnext => exact (ih byte).mp (h byte) _ result hnext
    · intro h byte
      rw [ih byte]
      intro es result hnext
      exact h _ _ (.read byte hnext)
  | write now purpose address value next ih =>
    constructor
    · intro h es result hd
      cases hd with
      | write hnext => exact ih.mp h _ result hnext
    · intro h
      refine ih.mpr ?_
      intro es result hnext
      exact h _ _ (.write hnext)

theorem Every.imp {Q Q' : List (Exchange ρ) → α → Prop} {d : Dialogue ρ α} (h : d.Every Q)
    (himp : ∀ es result, Q es result → Q' es result) : d.Every Q' := by
  rw [every_iff] at h ⊢
  intro es result hd
  exact himp es result (h es result hd)

theorem Every.and {Q Q' : List (Exchange ρ) → α → Prop} {d : Dialogue ρ α} (h : d.Every Q)
    (h' : d.Every Q') : d.Every fun es result => Q es result ∧ Q' es result := by
  rw [every_iff] at h h' ⊢
  intro es result hd
  exact ⟨h es result hd, h' es result hd⟩

/-- The ways through a dialogue and the one that follows it are the ways through both. -/
theorem every_bind {Q : List (Exchange ρ) → β → Prop} (d : Dialogue ρ α)
    (f : α → Dialogue ρ β) :
    (d >>= f).Every Q ↔
      d.Every fun es a => (f a).Every fun es' b => Q (es ++ es') b := by
  show (d.bind f).Every Q ↔ _
  induction d generalizing Q with
  | done result => rfl
  | read now purpose address next ih => exact forall_congr' fun byte => ih byte
  | write now purpose address value next ih => exact ih

theorem exists_admits (d : Dialogue ρ α) : ∃ es result, d.Admits es result := by
  induction d with
  | done result => exact ⟨[], result, .done result⟩
  | read now purpose address next ih =>
    obtain ⟨es, result, h⟩ := ih 0
    exact ⟨_, result, .read 0 h⟩
  | write now purpose address value next ih =>
    obtain ⟨es, result, h⟩ := ih
    exact ⟨_, result, .write h⟩

/-! ## Holding a dialogue with a bus -/

/-- A dialogue whose exchanges the bus all grants comes to its end. -/
theorem run_of_grantsAll {bus : Bus σ} {d : Dialogue ρ α} {es : List (Exchange ρ)} {result : α}
    {host host' : σ} (hd : d.Admits es result) (hg : bus.GrantsAll es host host') :
    d.run bus host = (.ok result, host') := by
  induction hd generalizing host with
  | done result =>
    obtain rfl : host' = host := hg
    rfl
  | read byte _ ih =>
    obtain ⟨between, hfirst, hrest⟩ := hg
    have hread : bus.read _ host = (.ok byte, between) := hfirst
    simp only [run, hread]
    exact ih hrest
  | write _ ih =>
    obtain ⟨between, hfirst, hrest⟩ := hg
    have hwrite : bus.write _ _ host = (.ok (), between) := hfirst
    simp only [run, hwrite]
    exact ih hrest

/-- **A refused exchange cuts the dialogue.** The asking side is left as it was when it asked, and
the exchanges that would have come after do not take place. -/
theorem run_of_refuses {bus : Bus σ} {d : Dialogue ρ α} {before after : List (Exchange ρ)}
    {e : Exchange ρ} {result : α} {host host₁ host₂ : σ} {error : BusError}
    (hd : d.Admits (before ++ e :: after) result) (hg : bus.GrantsAll before host host₁)
    (hr : bus.Refuses e host₁ error host₂) :
    d.run bus host = (.error { state := e.now, error }, host₂) := by
  induction before generalizing d host with
  | nil =>
    obtain rfl : host₁ = host := hg
    cases hd with
    | read byte _ =>
      have hread : bus.read _ host₁ = (.error error, host₂) := hr
      simp only [run, hread]
    | write _ =>
      have hwrite : bus.write _ _ host₁ = (.error error, host₂) := hr
      simp only [run, hwrite]
  | cons first before ih =>
    obtain ⟨between, hfirst, hrest⟩ := hg
    cases hd with
    | read byte hnext =>
      have hread : bus.read _ host = (.ok byte, between) := hfirst
      simp only [run, hread]
      exact ih hnext hrest
    | write hnext =>
      have hwrite : bus.write _ _ host = (.ok (), between) := hfirst
      simp only [run, hwrite]
      exact ih hnext hrest

/-- **Nothing else can happen**: a dialogue held with a bus goes one of its ways to the end, or is
cut at the first exchange on one of its ways that the bus refuses. -/
theorem run_cases (bus : Bus σ) (d : Dialogue ρ α) (host : σ) :
    (∃ es result host', d.Admits es result ∧ bus.GrantsAll es host host' ∧
      d.run bus host = (.ok result, host')) ∨
    (∃ before e after result host₁ error host₂, d.Admits (before ++ e :: after) result ∧
      bus.GrantsAll before host host₁ ∧ bus.Refuses e host₁ error host₂ ∧
      d.run bus host = (.error { state := e.now, error }, host₂)) := by
  induction d generalizing host with
  | done result => exact .inl ⟨[], result, host, .done result, rfl, rfl⟩
  | read now purpose address next ih =>
    rcases hb : bus.read address host with ⟨error | byte, between⟩
    · -- No byte went over the bus, so any will do for the way that is cut here.
      obtain ⟨after, result, hd⟩ := exists_admits (next 0)
      exact .inr ⟨[], _, after, result, host, error, between, .read 0 hd, rfl, hb,
        by simp only [run, hb]⟩
    · rcases ih byte between with ⟨es, result, host', hd, hg, hrun⟩ |
        ⟨before, e, after, result, host₁, error, host₂, hd, hg, hr, hrun⟩
      · exact .inl ⟨_, result, host', .read byte hd, ⟨between, hb, hg⟩, by simp only [run, hb, hrun]⟩
      · exact .inr ⟨_ :: before, e, after, result, host₁, error, host₂, .read byte hd,
          ⟨between, hb, hg⟩, hr, by simp only [run, hb, hrun]⟩
  | write now purpose address value next ih =>
    rcases hb : bus.write address value host with ⟨error | u, between⟩
    · obtain ⟨after, result, hd⟩ := exists_admits next
      exact .inr ⟨[], _, after, result, host, error, between, .write hd, rfl, hb,
        by simp only [run, hb]⟩
    · rcases ih between with ⟨es, result, host', hd, hg, hrun⟩ |
        ⟨before, e, after, result, host₁, error, host₂, hd, hg, hr, hrun⟩
      · exact .inl ⟨_, result, host', .write hd, ⟨between, hb, hg⟩, by simp only [run, hb, hrun]⟩
      · exact .inr ⟨_ :: before, e, after, result, host₁, error, host₂, .write hd,
          ⟨between, hb, hg⟩, hr, by simp only [run, hb, hrun]⟩

end Dialogue

end Spc700
