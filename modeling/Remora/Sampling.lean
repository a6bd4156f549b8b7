import Mathlib.Algebra.Order.Floor.Ring
import Mathlib.Data.Rat.Floor
import Mathlib.Tactic.Linarith

/-!
# Programs that draw random numbers

A sampler takes the numbers it draws off a tape, and what it does is a function of the tape. So
what every result has in common, whatever is drawn, is a fact about all tapes (`Ensures`), and what
can be drawn is that some tape leads to it.

A loop that draws again until a result is accepted (`loopUntil`) takes more of the tape in every
round (`Consumes`). It can end if and only if one round can (`exists_loopUntil_iff`).

A generator of random numbers does not run out of them. A tape that is cut from an endless stream is
long enough, if it is long enough for a sampler that ends wherever it begins on the stream
(`EndsOn`), and samplers one after the other do if each of them does.
-/

namespace Sampling

variable {α β : Type}

/-- The result, and what is left of the tape. `none` : a panic, or the end of the tape. -/
def Sampler (α : Type) : Type :=
  List ℕ → Option (α × List ℕ)

namespace Sampler

instance : Monad Sampler where
  pure a draws := some (a, draws)
  bind m f draws := (m draws).bind fun (a, rest) => f a rest

def panic : Sampler α :=
  fun _ => none

/-- A computation that draws nothing. -/
def lift : Option α → Sampler α
  | some a => pure a
  | none => panic

/-- The next number. -/
def draw : Sampler ℕ
  | [] => none
  | d :: draws => some (d, draws)

/-- `gen_range(lo..=hi)`. -/
def genRange (lo hi : ℕ) : Sampler ℕ :=
  if lo ≤ hi then do
    let d ← draw
    pure (lo + d % (hi - lo + 1))
  else panic

/-- A floating-point number, `none` if it is not a number. An infinity is like any other number that
is no probability. -/
abbrev F64 : Type :=
  Option ℚ

/-- `gen_bool`, which compares 64 random bits with the probability. -/
def genBool : F64 → Sampler Bool
  | none => panic
  | some p =>
    if p = 1 then pure true
    else if 0 ≤ p ∧ p < 1 then do
      let d ← draw
      pure ((d % 2 ^ 64 : ℕ) < ⌊p * 2 ^ 64⌋)
    else panic

/-- `n` results. -/
def replicate (m : Sampler α) : ℕ → Sampler (List α)
  | 0 => pure []
  | n + 1 => do
    let a ← m
    let as ← replicate m n
    pure (a :: as)

/-! ## What is drawn whatever the tape is -/

/-- All results have the property. -/
def Ensures (m : Sampler α) (Q : α → Prop) : Prop :=
  ∀ draws a rest, m draws = some (a, rest) → Q a

section Ensures

variable {m : Sampler α} {f : α → Sampler β} {Q Q' : α → Prop} {R : β → Prop}

theorem bind_eq_some {draws rest : List ℕ} {b : β} (h : (m >>= f) draws = some (b, rest)) :
    ∃ a rest', m draws = some (a, rest') ∧ f a rest' = some (b, rest) := by
  obtain ⟨⟨a, rest'⟩, ha, hb⟩ := Option.bind_eq_some_iff.mp h
  exact ⟨a, rest', ha, hb⟩

theorem Ensures.pure {a : α} (h : Q a) : Ensures (Pure.pure a) Q := by
  intro draws a' rest heq
  obtain ⟨rfl, -⟩ := Prod.mk.inj (Option.some.inj heq)
  exact h

theorem Ensures.panic : Ensures (Sampler.panic : Sampler α) Q := by
  intro draws a rest h
  cases h

theorem Ensures.bind (hm : Ensures m Q) (hf : ∀ a, Q a → Ensures (f a) R) :
    Ensures (m >>= f) R := by
  intro draws b rest h
  obtain ⟨a, rest', ha, hb⟩ := bind_eq_some h
  exact hf a (hm _ _ _ ha) _ _ _ hb

theorem Ensures.mono (hm : Ensures m Q) (h : ∀ a, Q a → Q' a) : Ensures m Q' :=
  fun draws a rest heq => h a (hm draws a rest heq)

theorem Ensures.trivial (m : Sampler α) : Ensures m fun _ => True :=
  fun _ _ _ _ => True.intro

theorem Ensures.lift {o : Option α} (h : ∀ a, o = some a → Q a) : Ensures (Sampler.lift o) Q := by
  cases o with
  | none => exact Ensures.panic
  | some a => exact Ensures.pure (h a rfl)

theorem Ensures.ite {c : Prop} [Decidable c] {m' : Sampler α} (hm : c → Ensures m Q)
    (hm' : ¬c → Ensures m' Q) : Ensures (if c then m else m') Q := by
  split_ifs with h
  · exact hm h
  · exact hm' h

theorem ensures_genRange (lo hi : ℕ) : Ensures (genRange lo hi) fun n => lo ≤ n ∧ n ≤ hi := by
  unfold genRange
  refine Ensures.ite (fun hle => ?_) fun _ => Ensures.panic
  refine (Ensures.trivial draw).bind fun d _ => Ensures.pure ?_
  have hlt : d % (hi - lo + 1) < hi - lo + 1 := Nat.mod_lt d (Nat.succ_pos _)
  omega

theorem ensures_replicate (hm : Ensures m Q) (n : ℕ) :
    Ensures (m.replicate n) fun as => as.length = n ∧ ∀ a ∈ as, Q a := by
  induction n with
  | zero => exact Ensures.pure ⟨rfl, by simp⟩
  | succ n ih =>
    refine hm.bind fun a ha => ih.bind fun as has => Ensures.pure ⟨?_, ?_⟩
    · rw [List.length_cons, has.1]
    · exact List.forall_mem_cons.mpr ⟨ha, has.2⟩

end Ensures

/-! ## What can be drawn -/

theorem bind_of_some {m : Sampler α} {f : α → Sampler β} {draws rest : List ℕ} {a : α}
    (h : m draws = some (a, rest)) : (m >>= f) draws = f a rest := by
  change (m draws).bind _ = _
  rw [h]
  rfl

theorem genRange_cons {lo hi n : ℕ} (hlo : lo ≤ n) (hhi : n ≤ hi) (rest : List ℕ) :
    genRange lo hi ((n - lo) :: rest) = some (n, rest) := by
  have hmod : (n - lo) % (hi - lo + 1) = n - lo := Nat.mod_eq_of_lt (by omega)
  have hn : lo + (n - lo) % (hi - lo + 1) = n := by omega
  rw [genRange, if_pos (hlo.trans hhi)]
  exact congrArg (fun n => some (n, rest)) hn

theorem genBool_one (draws : List ℕ) : genBool (some 1) draws = some (true, draws) := by
  rw [genBool, if_pos rfl]
  rfl

/-- Any other probability leaves room for `false`. -/
theorem genBool_false {p : ℚ} (hlo : 0 ≤ p) (hhi : p < 1) (rest : List ℕ) :
    genBool (some p) ((2 ^ 64 - 1) :: rest) = some (false, rest) := by
  have hfloor : ⌊p * 2 ^ 64⌋ ≤ 2 ^ 64 - 1 := by
    rw [Int.le_sub_one_iff, Int.floor_lt]
    push_cast
    linarith
  have hbits : ¬((((2 ^ 64 - 1) % 2 ^ 64 : ℕ) : ℤ) < ⌊p * 2 ^ 64⌋) := by
    rw [Int.not_lt]
    exact hfloor
  rw [genBool, if_neg hhi.ne, if_pos ⟨hlo, hhi⟩]
  exact congrArg (fun b => some (b, rest)) (decide_eq_false hbits)

/-- A shorter run has the first results. -/
theorem replicate_take {m : Sampler α} {n k : ℕ} {draws rest : List ℕ} {as : List α}
    (h : m.replicate k draws = some (as, rest)) (hn : n ≤ k) :
    ∃ rest', m.replicate n draws = some (as.take n, rest') := by
  induction k generalizing n draws rest as with
  | zero =>
    obtain rfl := Nat.le_zero.mp hn
    exact ⟨draws, rfl⟩
  | succ k ih =>
    cases n with
    | zero => exact ⟨draws, rfl⟩
    | succ n =>
      obtain ⟨a, rest', ha, h⟩ := bind_eq_some h
      obtain ⟨as', rest'', has, h⟩ := bind_eq_some h
      obtain ⟨rfl, -⟩ := Prod.mk.inj (Option.some.inj h)
      obtain ⟨left, hleft⟩ := ih has (Nat.le_of_succ_le_succ hn)
      refine ⟨left, ?_⟩
      rw [replicate, bind_of_some ha, bind_of_some hleft]
      rfl

/-! ## Loops -/

/-- Every result is drawn. -/
def Consumes (m : Sampler α) : Prop :=
  ∀ draws a rest, m draws = some (a, rest) → rest.length < draws.length

/-- Nothing is put back on the tape. -/
def Keeps (m : Sampler α) : Prop :=
  ∀ draws a rest, m draws = some (a, rest) → rest.length ≤ draws.length

/-- Draws again until a result is accepted. -/
def loopUntil (m : Sampler α) (hm : m.Consumes) (accept : α → Bool) : Sampler α :=
  fun draws =>
    match _h : m draws with
    | none => none
    | some (a, rest) => if accept a then some (a, rest) else loopUntil m hm accept rest
termination_by draws => draws.length
decreasing_by exact hm _ _ _ _h

section Loops

variable {m : Sampler α} {f : α → Sampler β}

theorem Keeps.pure (a : α) : Keeps (Pure.pure a) := by
  intro draws a' rest h
  obtain ⟨-, rfl⟩ := Prod.mk.inj (Option.some.inj h)
  exact Nat.le_refl _

theorem Keeps.lift (o : Option α) : Keeps (Sampler.lift o) := by
  cases o with
  | none =>
    intro draws a rest h
    cases h
  | some a => exact Keeps.pure a

theorem Consumes.panic : Consumes (Sampler.panic : Sampler α) := by
  intro draws a rest h
  cases h

theorem Consumes.keeps (h : m.Consumes) : m.Keeps :=
  fun draws a rest heq => (h draws a rest heq).le

theorem Consumes.bind (hm : m.Consumes) (hf : ∀ a, (f a).Keeps) : (m >>= f).Consumes := by
  intro draws b rest h
  obtain ⟨a, rest', ha, hb⟩ := bind_eq_some h
  exact (hf a _ _ _ hb).trans_lt (hm _ _ _ ha)

theorem Keeps.bind (hm : m.Keeps) (hf : ∀ a, (f a).Consumes) : (m >>= f).Consumes := by
  intro draws b rest h
  obtain ⟨a, rest', ha, hb⟩ := bind_eq_some h
  exact (hf a _ _ _ hb).trans_le (hm _ _ _ ha)

theorem consumes_draw : draw.Consumes
  | d :: draws, _, _, h => by
    obtain ⟨-, rfl⟩ := Prod.mk.inj (Option.some.inj h)
    exact Nat.lt_succ_self _

theorem consumes_genRange (lo hi : ℕ) : (genRange lo hi).Consumes := by
  unfold genRange
  split_ifs
  · exact consumes_draw.bind fun _ => Keeps.pure _
  · exact Consumes.panic

theorem keeps_genBool (p : F64) : (genBool p).Keeps := by
  cases p with
  | none => exact Consumes.panic.keeps
  | some p =>
    simp only [genBool]
    split_ifs
    · exact Keeps.pure _
    · exact (consumes_draw.bind fun _ => Keeps.pure _).keeps
    · exact Consumes.panic.keeps

variable {hm : m.Consumes} {accept : α → Bool} {draws rest : List ℕ} {a : α}

theorem loopUntil_of_accept (h : m draws = some (a, rest)) (ha : accept a = true) :
    loopUntil m hm accept draws = some (a, rest) := by
  rw [loopUntil]
  split
  · simp_all
  · simp_all

theorem loopUntil_of_reject (h : m draws = some (a, rest)) (ha : accept a = false) :
    loopUntil m hm accept draws = loopUntil m hm accept rest := by
  conv_lhs => rw [loopUntil]
  split
  · simp_all
  · simp_all

/-- What the loop returns was drawn in its last round, and accepted. -/
theorem loopUntil_eq_some (h : loopUntil m hm accept draws = some (a, rest)) :
    accept a = true ∧ ∃ draws', m draws' = some (a, rest) := by
  induction hn : draws.length using Nat.strongRecOn generalizing draws with
  | _ n ih =>
    rw [loopUntil] at h
    split at h
    · cases h
    · rename_i a' rest' hround
      split_ifs at h with haccept
      · obtain ⟨rfl, rfl⟩ := Prod.mk.inj (Option.some.inj h)
        exact ⟨haccept, draws, hround⟩
      · exact ih rest'.length (hn ▸ hm _ _ _ hround) h rfl

theorem ensures_loopUntil {Q : α → Prop} (hQ : Ensures m Q) :
    Ensures (loopUntil m hm accept) fun a => accept a = true ∧ Q a := by
  intro draws a rest h
  obtain ⟨haccept, draws', hround⟩ := loopUntil_eq_some h
  exact ⟨haccept, hQ _ _ _ hround⟩

/-- The loop can end if and only if a round can. -/
theorem exists_loopUntil_iff : (∃ draws, (loopUntil m hm accept draws).isSome) ↔
    ∃ draws a rest, m draws = some (a, rest) ∧ accept a = true := by
  constructor
  · rintro ⟨draws, h⟩
    obtain ⟨⟨a, rest⟩, h⟩ := Option.isSome_iff_exists.mp h
    obtain ⟨haccept, draws', hround⟩ := loopUntil_eq_some h
    exact ⟨draws', a, rest, hround, haccept⟩
  · rintro ⟨draws, a, rest, hround, haccept⟩
    exact ⟨draws, by rw [loopUntil_of_accept hround haccept]; rfl⟩

end Loops

/-! ## Endless tapes -/

/-- `n` numbers of the stream, from the `k`-th one on. -/
def segment (σ : ℕ → ℕ) (k n : ℕ) : List ℕ :=
  (List.range n).map fun i => σ (k + i)

/-- The sampler takes `used` off the tape, whatever comes after it. -/
def Takes (m : Sampler α) (used : List ℕ) (a : α) : Prop :=
  ∀ rest, m (used ++ rest) = some (a, rest)

/-- Wherever on the stream the sampler begins, it ends. -/
def EndsOn (σ : ℕ → ℕ) (m : Sampler α) : Prop :=
  ∀ k, ∃ n a, m.Takes (segment σ k n) a

theorem segment_add (σ : ℕ → ℕ) (k n n' : ℕ) :
    segment σ k (n + n') = segment σ k n ++ segment σ (k + n) n' := by
  unfold segment
  rw [List.range_add, List.map_append, List.map_map]
  simp only [Function.comp_def, Nat.add_assoc]

theorem Takes.bind {m : Sampler α} {f : α → Sampler β} {used used' : List ℕ} {a : α} {b : β}
    (hm : m.Takes used a) (hf : (f a).Takes used' b) : (m >>= f).Takes (used ++ used') b := by
  intro rest
  rw [List.append_assoc, bind_of_some (hm _), hf]

section EndsOn

variable {σ : ℕ → ℕ} {m : Sampler α} {f : α → Sampler β} {Q : α → Prop}

theorem EndsOn.pure (a : α) : EndsOn σ (Pure.pure a) :=
  fun _ => ⟨0, a, fun _ => rfl⟩

theorem EndsOn.lift {o : Option α} (h : o.isSome) : EndsOn σ (Sampler.lift o) := by
  obtain ⟨a, rfl⟩ := Option.isSome_iff_exists.mp h
  exact EndsOn.pure a

/-- What comes second has to end after the results there are only. -/
theorem EndsOn.bind (hm : EndsOn σ m) (hQ : Ensures m Q) (hf : ∀ a, Q a → EndsOn σ (f a)) :
    EndsOn σ (m >>= f) := by
  intro k
  obtain ⟨n, a, ha⟩ := hm k
  obtain ⟨n', b, hb⟩ := hf a (hQ _ _ _ (ha [])) (k + n)
  refine ⟨n + n', b, ?_⟩
  rw [segment_add]
  exact ha.bind hb

theorem EndsOn.seq (hm : EndsOn σ m) (hf : ∀ a, EndsOn σ (f a)) : EndsOn σ (m >>= f) :=
  hm.bind (Ensures.trivial m) fun a _ => hf a

theorem EndsOn.ite {c : Prop} [Decidable c] {m' : Sampler α} (hm : c → EndsOn σ m)
    (hm' : ¬c → EndsOn σ m') : EndsOn σ (if c then m else m') := by
  split_ifs with h
  · exact hm h
  · exact hm' h

theorem endsOn_draw : EndsOn σ draw :=
  fun k => ⟨1, σ k, fun _ => rfl⟩

theorem endsOn_genRange {lo hi : ℕ} (h : lo ≤ hi) : EndsOn σ (genRange lo hi) := by
  rw [genRange, if_pos h]
  exact endsOn_draw.seq fun _ => EndsOn.pure _

theorem endsOn_genBool {p : ℚ} (hlo : 0 ≤ p) (hhi : p ≤ 1) : EndsOn σ (genBool (some p)) := by
  refine EndsOn.ite (fun _ => EndsOn.pure _) fun hne => ?_
  rw [if_pos ⟨hlo, lt_of_le_of_ne hhi hne⟩]
  exact endsOn_draw.seq fun _ => EndsOn.pure _

theorem endsOn_replicate (hm : EndsOn σ m) (n : ℕ) : EndsOn σ (m.replicate n) := by
  induction n with
  | zero => exact EndsOn.pure _
  | succ n ih =>
    exact hm.seq fun a => ih.seq fun as => EndsOn.pure _

/-- A loop of rounds of one number each ends, if a number that is accepted comes again and again. -/
theorem endsOn_loopUntil {hm : m.Consumes} {accept : α → Bool} (result : ℕ → α)
    (hround : ∀ d, m.Takes [d] (result d))
    (hagain : ∀ k, ∃ n, accept (result (σ (k + n))) = true) :
    EndsOn σ (loopUntil m hm accept) := by
  intro k
  obtain ⟨n, hn⟩ := hagain k
  induction n generalizing k with
  | zero => exact ⟨1, result (σ k), fun rest => loopUntil_of_accept (hround _ rest) hn⟩
  | succ n ih =>
    cases haccept : accept (result (σ k)) with
    | true => exact ⟨1, result (σ k), fun rest => loopUntil_of_accept (hround _ rest) haccept⟩
    | false =>
      obtain ⟨n', a, ha⟩ := ih (k + 1) (by rwa [Nat.add_assoc, Nat.add_comm 1])
      refine ⟨1 + n', a, fun rest => ?_⟩
      rw [segment_add, List.append_assoc]
      exact (loopUntil_of_reject (hround _ _) haccept).trans (ha rest)

/-- From some length on, the beginning of the stream is a tape that is long enough. -/
theorem EndsOn.exists_segment (h : EndsOn σ m) : ∃ N, ∀ n ≥ N, (m (segment σ 0 n)).isSome := by
  obtain ⟨N, a, ha⟩ := h 0
  refine ⟨N, fun n hn => ?_⟩
  obtain ⟨d, rfl⟩ := Nat.exists_eq_add_of_le hn
  rw [segment_add, ha]
  rfl

end EndsOn

/-! ## What does not panic -/

theorem lift_eq_some {o : Option α} {a : α} {draws rest : List ℕ}
    (h : lift o draws = some (a, rest)) : o = some a ∧ rest = draws := by
  cases o with
  | none => cases h
  | some a' =>
    obtain ⟨rfl, rfl⟩ := Prod.mk.inj (Option.some.inj h)
    exact ⟨rfl, rfl⟩

theorem exists_of_isSome_genBool {p : F64} {draws : List ℕ} (h : (genBool p draws).isSome) :
    ∃ q, p = some q ∧ 0 ≤ q ∧ q ≤ 1 := by
  cases p with
  | none => cases h
  | some q =>
    refine ⟨q, rfl, ?_⟩
    by_contra hno
    have hone : q ≠ 1 := by
      rintro rfl
      exact hno (by norm_num)
    have hlt : ¬(0 ≤ q ∧ q < 1) := fun hq => hno ⟨hq.1, hq.2.le⟩
    rw [genBool, if_neg hone, if_neg hlt] at h
    cases h

end Sampler

end Sampling
