import Ivory.Base.Codec

/-!
# Readers that raise

A `Reader` takes bytes off the front of its input or raises.  `Follows p q f`
compares it with a reader `q` that fails without saying why: where `q` reads a
value, `p` reads the same value and leaves the same; where `q` fails, `p` raises
or has used up all of its input.  The second case is how a reader behaves that
does not notice the end of its input.

* `Follows.bind`, `Follows.pair`, `Follows.times`, `Follows.vec`: the comparison
  carries over to sequences and repetitions.
-/

/-- A reader that takes bytes off the front of its input or raises. -/
abbrev Reader (ε α : Type) : Type := StateT (List UInt8) (Except ε) α

namespace Reader

variable {ε α β γ δ : Type}

/-- One reader after the other. -/
def pair (p : Reader ε α) (p' : Reader ε β) : Reader ε (α × β) := do
  let a ← p
  let b ← p'
  pure (a, b)

/-- The same reader several times. -/
def times (p : Reader ε α) : ℕ → Reader ε (List α)
  | 0 => pure []
  | n + 1 => do
    let a ← p
    let as ← times p n
    pure (a :: as)

theorem run_bind_eq_ok {p : Reader ε α} {k : α → Reader ε β} {v r : List UInt8} {b : β} :
    (p >>= k).run v = .ok (b, r) ↔ ∃ a v', p.run v = .ok (a, v') ∧ (k a).run v' = .ok (b, r) := by
  rw [StateT.run_bind]
  cases hp : p.run v with
  | error e => simp [bind, Except.bind]
  | ok x =>
    simp only [bind, Except.bind]
    constructor
    · exact fun h => ⟨x.1, x.2, rfl, h⟩
    · rintro ⟨a, v', h, hk⟩
      cases h
      exact hk

theorem run_pure_eq_ok {v r : List UInt8} {a b : α} :
    (pure a : Reader ε α).run v = .ok (b, r) ↔ a = b ∧ v = r := by
  rw [StateT.run_pure]
  show Except.ok (a, v) = Except.ok (b, r) ↔ _
  rw [Except.ok.injEq, Prod.mk.injEq]

/-- A reader that is given nothing leaves nothing. -/
def Ended (p : Reader ε α) : Prop := ∀ (a : α) (r : List UInt8), p.run [] = .ok (a, r) → r = []

theorem ended_pure (a : α) : Ended (pure a : Reader ε α) :=
  fun _ _ h => (run_pure_eq_ok.mp h).2.symm

theorem Ended.bind {p : Reader ε α} {k : α → Reader ε β} (hp : Ended p) (hk : ∀ a, Ended (k a)) :
    Ended (p >>= k) := by
  intro b r h
  obtain ⟨a, v', ha, hb⟩ := run_bind_eq_ok.mp h
  cases hp a v' ha
  exact hk a b r hb

theorem Ended.pair {p : Reader ε α} {p' : Reader ε β} (hp : Ended p) (hp' : Ended p') :
    Ended (p.pair p') := hp.bind fun _ => hp'.bind fun _ => ended_pure _

theorem Ended.times {p : Reader ε α} (hp : Ended p) : ∀ n, Ended (p.times n) := by
  intro n
  induction n with
  | zero => exact ended_pure _
  | succ n ih => exact hp.bind fun _ => ih.bind fun _ => ended_pure _

/-- The reader `p` reads what `q` reads; where `q` fails, it raises or uses up its input. -/
structure Follows (p : Reader ε β) (q : List UInt8 → Option (α × List UInt8)) (f : α → β) :
    Prop where
  agree : ∀ {v r : List UInt8} {a : α}, q v = some (a, r) → p.run v = .ok (f a, r)
  exhausted : ∀ {v r : List UInt8} {b : β}, q v = none → p.run v = .ok (b, r) → r = []

/-- The reader `p` reads what `q` reads, and raises where `q` fails. -/
def Agrees (p : Reader ε β) (q : List UInt8 → Option (α × List UInt8)) (f : α → β) : Prop :=
  ∀ v, (p.run v).toOption = (q v).map fun x => (f x.1, x.2)

theorem toOption_eq_some {x : Except ε α} {a : α} (h : x.toOption = some a) : x = .ok a := by
  cases x with
  | error e => cases h
  | ok b =>
    cases h
    rfl

theorem Agrees.follows {p : Reader ε β} {q : List UInt8 → Option (α × List UInt8)} {f : α → β}
    (h : Agrees p q f) : Follows p q f where
  agree := by
    intro v r a hq
    exact toOption_eq_some (by rw [h v, hq]; rfl)
  exhausted := by
    intro v r b hq hp
    have hv := h v
    rw [hq, hp] at hv
    cases hv

theorem follows_pure (a : α) (f : α → β) :
    Follows (pure (f a) : Reader ε β) (fun v => some (a, v)) f where
  agree h := by
    cases h
    rfl
  exhausted h := by cases h

theorem Follows.bind {p : Reader ε β} {q : List UInt8 → Option (α × List UInt8)} {f : α → β}
    {k : β → Reader ε δ} {l : α → List UInt8 → Option (γ × List UInt8)} {g : γ → δ}
    (hp : Follows p q f) (hk : ∀ a, Follows (k (f a)) (l a) g) (he : ∀ b, Ended (k b)) :
    Follows (p >>= k) (fun v => (q v).bind fun x => l x.1 x.2) g where
  agree := by
    intro v r c h
    obtain ⟨x, hx, hc⟩ := Option.bind_eq_some_iff.mp h
    exact run_bind_eq_ok.mpr ⟨f x.1, x.2, hp.agree hx, (hk x.1).agree hc⟩
  exhausted := by
    intro v r d hnone h
    obtain ⟨b, v', hb, hd⟩ := run_bind_eq_ok.mp h
    cases hq : q v with
    | none =>
      -- the first reader went on where it should have stopped: nothing is left for the second
      cases hp.exhausted hq hb
      exact he b d r hd
    | some x =>
      rw [hp.agree hq] at hb
      cases hb
      rw [hq, Option.bind_some] at hnone
      exact (hk x.1).exhausted hnone hd

theorem Follows.map {c : Codec α} {p : Reader ε β} {f : α → β} (hp : Follows p c.decode f)
    {F : α → γ} {G : γ → α} {hFG : ∀ x, F (G x) = x} {g : γ → β} (hg : ∀ a, g (F a) = f a) :
    Follows p (c.map F G hFG).decode g where
  agree := by
    intro v r x h
    obtain ⟨y, hy, h⟩ := Option.bind_eq_some_iff.mp h
    cases h
    rw [hg]
    exact hp.agree hy
  exhausted := by
    intro v r b hnone
    refine hp.exhausted ?_
    cases hy : c.decode v with
    | none => rfl
    | some y => simp [Codec.map, Codec.refine, hy] at hnone

theorem Follows.pair {c : Codec α} {d : Codec γ} {p : Reader ε β} {p' : Reader ε δ} {f : α → β}
    {g : γ → δ} (hp : Follows p c.decode f) (hp' : Follows p' d.decode g) (he : Ended p') :
    Follows (p.pair p') (c.pair d).decode (Prod.map f g) := by
  have hrest : ∀ a, Follows (p' >>= fun b => pure (f a, b))
      (fun v => (d.decode v).bind fun y => some ((a, y.1), y.2)) (Prod.map f g) := fun a =>
    hp'.bind (fun b => follows_pure (a, b) (Prod.map f g)) fun b => ended_pure _
  exact hp.bind hrest fun b => he.bind fun b' => ended_pure _

theorem Follows.times {c : Codec α} {p : Reader ε β} {f : α → β} (hp : Follows p c.decode f)
    (he : Ended p) : ∀ n, Follows (p.times n) (c.decodeN n) (List.map f) := by
  intro n
  induction n with
  | zero => exact follows_pure [] (List.map f)
  | succ n ih =>
    have hrest : ∀ a, Follows (p.times n >>= fun bs => pure (f a :: bs))
        (fun v => (c.decodeN n v).bind fun y => some (a :: y.1, y.2)) (List.map f) := fun a =>
      ih.bind (fun as => follows_pure (a :: as) (List.map f)) fun bs => ended_pure _
    exact hp.bind hrest fun b => (he.times n).bind fun bs => ended_pure _

theorem Follows.vec {c : Codec α} {len : Reader ε ℕ} {p : Reader ε β} {f : α → β}
    (hlen : Follows len Codec.word64.decode UInt64.toNat) (hp : Follows p c.decode f)
    (he : Ended p) :
    Follows (len >>= p.times) c.vec.decode (fun v => v.toList.map f) := by
  have hseq := hlen.bind (fun n => hp.times he n.toNat) he.times
  constructor
  · intro v r x h
    obtain ⟨n, v', hn, hx⟩ := Codec.decode_vec.mp h
    exact hseq.agree (by rw [hn, Option.bind_some]; exact hx)
  · intro v r bs hnone
    refine hseq.exhausted ?_
    -- a length of 64 bits always describes a vector
    rw [Option.eq_none_iff_forall_ne_some]
    rintro ⟨l, r'⟩ hsome
    obtain ⟨⟨n, v'⟩, hn, hl⟩ := Option.bind_eq_some_iff.mp hsome
    have hlt : l.length < 2 ^ 64 := by
      rw [c.decodeN_length hl]
      exact n.toNat_lt
    have hvec : c.vec.decode v = some (⟨l, hlt⟩, r') := Codec.decode_vec.mpr ⟨n, v', hn, hl⟩
    rw [hnone] at hvec
    cases hvec

end Reader
