import PaxosLog.Random.Pool
import PaxosLog.Proofs.Random.Lawful

/-!
# Shared streams

Each provider made from a seed founds a family; shared providers join the family of the one they
were shared from (`joinFamily`). A family goes by the number of its founder. What is read through
its members, by whichever of them and whatever else is done in between, is read from one stream.

* `Pool.Founded`: two providers read the same stream if and only if they are of one family. Every
  step keeps this.
* `Pool.Holds.own` and `Pool.Holds.other`: a reading through a family is one from its stream, and
  every other step leaves this stream as it is.
* `Pool.Holds.run`: so the results of a family are those of its readings one after another, and
  for a whole run these are readings from the stream of a seed (`Founds.resultsOf_eq`).

**`family_is_one_stream`**: the results are the ones that a single provider of the same seed gives
for these readings. How many numbers of the stream a reading takes does not matter, and some take
none.
-/

namespace PaxosLog

/-- Reads one reading after another, and lists the results. -/
def Stream.readAll (s : Stream) : List Reading → List Drawn × Stream
  | [] => ([], s)
  | reading :: rest =>
    let (result, s) := s.read reading
    let (results, s) := s.readAll rest
    (result :: results, s)

/-! ## Families -/

/-- The families of all providers, after a step. -/
def joinFamily (families : List Nat) : PoolStep → List Nat
  | .fresh _ => families ++ [families.length]
  | .share p => families ++ families[p]?.toList
  | .read .. => families

/-- The families of all providers, after steps that start without any. -/
def familiesAfter (steps : List PoolStep) : List Nat := steps.foldl joinFamily []

/-- What a step reads through family `f`. -/
def PoolStep.reading? (families : List Nat) (f : Nat) : PoolStep → Option Reading
  | .read p reading => if families[p]? = some f then some reading else none
  | _ => none

/-- What steps read through family `f`. -/
def readings (f : Nat) : List Nat → List PoolStep → List Reading
  | _, [] => []
  | families, a :: rest => (a.reading? families f).toList ++ readings f (joinFamily families a) rest

/-- Those of the answers to the steps that belong to readings through family `f`. -/
def results (f : Nat) : List Nat → List PoolStep → List PoolAnswer → List PoolAnswer
  | families, a :: steps, answer :: answers =>
    (if (a.reading? families f).isSome then [answer] else []) ++
      results f (joinFamily families a) steps answers
  | _, _, _ => []

/-- What is read through family `f`, in steps that start without providers. -/
def readingsOf (f : Nat) (steps : List PoolStep) : List Reading := readings f [] steps

/-- The results of family `f`, in steps that start without providers. -/
def resultsOf (f : Nat) (steps : List PoolStep) : List PoolAnswer :=
  results f [] steps (Pool.empty.run steps).1

theorem PoolStep.reading?_eq_some {families : List Nat} {f : Nat} {a : PoolStep}
    {reading : Reading} (h : a.reading? families f = some reading) :
    ∃ p, a = .read p reading ∧ families[p]? = some f := by
  cases a with
  | fresh seed => cases h
  | share p => cases h
  | read p r =>
    obtain ⟨hp, hr⟩ := Option.ite_none_right_eq_some.mp h
    exact ⟨p, by rw [Option.some.inj hr], hp⟩

theorem length_le_foldl_joinFamily (families : List Nat) (steps : List PoolStep) :
    families.length ≤ (steps.foldl joinFamily families).length := by
  induction steps generalizing families with
  | nil => exact Nat.le_refl _
  | cons a rest ih =>
    refine Nat.le_trans ?_ (ih (joinFamily families a))
    cases a <;> simp [joinFamily]

theorem readings_append (f : Nat) (families : List Nat) (xs ys : List PoolStep) :
    readings f families (xs ++ ys) =
      readings f families xs ++ readings f (xs.foldl joinFamily families) ys := by
  induction xs generalizing families with
  | nil => rfl
  | cons a xs ih => simp [readings, ih]

theorem results_append (f : Nat) (families : List Nat) {xs : List PoolStep}
    {as : List PoolAnswer} (hlength : as.length = xs.length) (ys : List PoolStep)
    (bs : List PoolAnswer) :
    results f families (xs ++ ys) (as ++ bs) =
      results f families xs as ++ results f (xs.foldl joinFamily families) ys bs := by
  induction xs generalizing families as with
  | nil => simp [List.length_eq_zero_iff.mp hlength, results]
  | cons a xs ih =>
    cases as with
    | nil => simp at hlength
    | cons answer as => simp [results, ih (joinFamily families a) (Nat.succ.inj hlength)]

/-- Without readings there are no results. -/
theorem results_eq_nil {f : Nat} {families : List Nat} {steps : List PoolStep}
    (h : readings f families steps = []) (answers : List PoolAnswer) :
    results f families steps answers = [] := by
  induction steps generalizing families answers with
  | nil => rfl
  | cons a rest ih =>
    cases answers with
    | nil => rfl
    | cons answer answers =>
      obtain ⟨ha, hrest⟩ := List.append_eq_nil_iff.mp h
      have hnone : a.reading? families f = none := by simpa using ha
      simp [results, hnone, ih hrest answers]

/-- A reading through another family adds nothing. -/
theorem readingsOf_insert {f p : Nat} {xs : List PoolStep} (h : (familiesAfter xs)[p]? ≠ some f)
    (reading : Reading) (ys : List PoolStep) :
    readingsOf f (xs ++ .read p reading :: ys) = readingsOf f (xs ++ ys) := by
  have hnone : PoolStep.reading? (xs.foldl joinFamily []) f (.read p reading) = none := if_neg h
  simp [readingsOf, readings_append, readings, hnone, joinFamily]

namespace Pool

theorem run_append (pool : Pool) (xs ys : List PoolStep) :
    pool.run (xs ++ ys) =
      ((pool.run xs).1 ++ ((pool.run xs).2.run ys).1, ((pool.run xs).2.run ys).2) := by
  induction xs generalizing pool with
  | nil => rfl
  | cons a xs ih => simp [run, ih]

theorem length_run (pool : Pool) (steps : List PoolStep) :
    (pool.run steps).1.length = steps.length := by
  induction steps generalizing pool with
  | nil => rfl
  | cons a rest ih => simp [run, ih]

/-! ## Families and streams -/

variable {pool : Pool} {families : List Nat} {f : Nat} {s : Stream}

/-- Provider and stream go with each other as provider and family do. -/
structure Founded (pool : Pool) (families : List Nat) : Prop where
  length : families.length = pool.providers.length
  founder_lt : ∀ f i, (f, i) ∈ families.zip pool.providers → f < families.length
  stream_lt : ∀ f i, (f, i) ∈ families.zip pool.providers → i < pool.streams.length
  same : ∀ f i g j, (f, i) ∈ families.zip pool.providers →
    (g, j) ∈ families.zip pool.providers → (f = g ↔ i = j)

/-- The next number of family `f` comes from `s`. -/
def Holds (pool : Pool) (families : List Nat) (f : Nat) (s : Stream) : Prop :=
  ∃ i, (f, i) ∈ families.zip pool.providers ∧ pool.streams[i]? = some s

theorem founded_empty : Founded empty [] :=
  ⟨rfl, nofun, nofun, nofun⟩

namespace Founded

/-- A provider that exists has a family and a stream. -/
theorem cases (h : Founded pool families) (p : Nat) :
    (families[p]? = none ∧ pool.providers[p]? = none) ∨
    ∃ f i s, families[p]? = some f ∧ pool.providers[p]? = some i ∧ pool.streams[i]? = some s ∧
      (f, i) ∈ families.zip pool.providers := by
  by_cases hp : p < families.length
  · have hp' : p < pool.providers.length := h.length ▸ hp
    have hmem : (families[p], pool.providers[p]) ∈ families.zip pool.providers :=
      List.mem_iff_getElem.mpr ⟨p, by simp only [List.length_zip]; omega, by simp⟩
    exact .inr ⟨_, _, _, List.getElem?_eq_getElem hp, List.getElem?_eq_getElem hp',
      List.getElem?_eq_getElem (h.stream_lt _ _ hmem), hmem⟩
  · have hp' : ¬ p < pool.providers.length := h.length ▸ hp
    exact .inl ⟨List.getElem?_eq_none (by omega), List.getElem?_eq_none (by omega)⟩

/-- A provider of a pool with one more is an old one or the new one. -/
theorem mem_zip_append (h : Founded pool families) {f i g j : Nat} :
    (g, j) ∈ (families ++ [f]).zip (pool.providers ++ [i]) ↔
      (g, j) ∈ families.zip pool.providers ∨ g = f ∧ j = i := by
  have hzip : (families ++ [f]).zip (pool.providers ++ [i]) =
      families.zip pool.providers ++ [(f, i)] := List.zip_append h.length
  simp [hzip]

theorem fresh (h : Founded pool families) (seed : UInt64) :
    Founded (pool.step (.fresh seed)).2 (joinFamily families (.fresh seed)) where
  length := by simp [step, joinFamily, h.length]
  founder_lt g j hg := by
    simp only [joinFamily, List.length_append, List.length_singleton]
    obtain hg | ⟨rfl, -⟩ := h.mem_zip_append.mp hg
    · exact Nat.lt_succ_of_lt (h.founder_lt g j hg)
    · exact Nat.lt_succ_self _
  stream_lt g j hg := by
    simp only [step, List.length_append, List.length_singleton]
    obtain hg | ⟨-, rfl⟩ := h.mem_zip_append.mp hg
    · exact Nat.lt_succ_of_lt (h.stream_lt g j hg)
    · exact Nat.lt_succ_self _
  same g i g' i' hg hg' := by
    -- An old provider has neither the family nor the stream of the new one.
    obtain hg | ⟨rfl, rfl⟩ := h.mem_zip_append.mp hg <;>
      obtain hg' | ⟨rfl, rfl⟩ := h.mem_zip_append.mp hg'
    · exact h.same g i g' i' hg hg'
    · have := h.founder_lt g i hg
      have := h.stream_lt g i hg
      omega
    · have := h.founder_lt g' i' hg'
      have := h.stream_lt g' i' hg'
      omega
    · simp

/-- A shared provider is one more of the same kind. -/
theorem share (h : Founded pool families) (p : Nat) :
    Founded (pool.step (.share p)).2 (joinFamily families (.share p)) := by
  obtain ⟨hf, hi⟩ | ⟨f, i, s, hf, hi, -, hmem⟩ := h.cases p
  · simpa [step, joinFamily, hf, hi] using h
  · have hzip : ∀ g j, (g, j) ∈ (families ++ [f]).zip (pool.providers ++ [i]) →
        (g, j) ∈ families.zip pool.providers := fun g j hg => by
      obtain hg | ⟨rfl, rfl⟩ := h.mem_zip_append.mp hg
      · exact hg
      · exact hmem
    simp only [step, joinFamily, hf, hi, Option.toList_some]
    exact {
      length := by simp [h.length]
      founder_lt := fun g j hg => by
        rw [List.length_append]
        exact Nat.lt_add_right _ (h.founder_lt g j (hzip g j hg))
      stream_lt := fun g j hg => h.stream_lt g j (hzip g j hg)
      same := fun g i g' i' hg hg' => h.same g i g' i' (hzip g i hg) (hzip g' i' hg') }

theorem read (h : Founded pool families) (p : Nat) (reading : Reading) :
    Founded (pool.step (.read p reading)).2 (joinFamily families (.read p reading)) := by
  obtain ⟨-, hi⟩ | ⟨f, i, s, -, hi, hs, -⟩ := h.cases p
  · simpa [step, joinFamily, hi] using h
  · simp only [step, joinFamily, hi, hs]
    exact ⟨h.length, h.founder_lt, fun g j hg => by simpa using h.stream_lt g j hg, h.same⟩

theorem step (h : Founded pool families) : ∀ a : PoolStep,
    Founded (pool.step a).2 (joinFamily families a)
  | .fresh seed => h.fresh seed
  | .share p => h.share p
  | .read p reading => h.read p reading

theorem run (h : Founded pool families) (steps : List PoolStep) :
    Founded (pool.run steps).2 (steps.foldl joinFamily families) := by
  induction steps generalizing pool families with
  | nil => exact h
  | cons a rest ih => exact ih (h.step a)

/-- Nothing is read through a family that is not founded yet. -/
theorem readings_eq_nil (h : Founded pool families) {steps : List PoolStep}
    (hf : (steps.foldl joinFamily families).length ≤ f) : readings f families steps = [] := by
  induction steps generalizing pool families with
  | nil => rfl
  | cons a rest ih =>
    have hle := length_le_foldl_joinFamily families (a :: rest)
    have hnone : a.reading? families f = none := by
      refine Option.eq_none_iff_forall_ne_some.mpr fun reading ha => ?_
      obtain ⟨p, rfl, hp⟩ := PoolStep.reading?_eq_some ha
      obtain ⟨hp', -⟩ | ⟨g, i, -, hg, -, -, hmem⟩ := h.cases p
      · simp [hp] at hp'
      · obtain rfl : f = g := by simpa [hp] using hg
        have := h.founder_lt f i hmem
        omega
    simp [readings, hnone, ih (h.step a) hf]

end Founded

namespace Holds

/-- A reading through a family is one from its stream. -/
theorem own (h : Founded pool families) (hs : Holds pool families f s) {a : PoolStep}
    {reading : Reading} (ha : a.reading? families f = some reading) :
    (pool.step a).1 = .drawn (s.read reading).1 ∧
      Holds (pool.step a).2 (joinFamily families a) f (s.read reading).2 := by
  obtain ⟨i, hi, hstream⟩ := hs
  obtain ⟨p, rfl, hp⟩ := PoolStep.reading?_eq_some ha
  obtain ⟨hp', -⟩ | ⟨g, j, s', hg, hj, hs', hmem⟩ := h.cases p
  · simp [hp] at hp'
  obtain rfl : f = g := by simpa [hp] using hg
  obtain rfl := (h.same _ _ _ _ hi hmem).mp rfl
  obtain rfl : s = s' := by simpa [hstream] using hs'
  have hlt := h.stream_lt f i hi
  simp only [Pool.step, joinFamily, hj, hstream, true_and]
  exact ⟨i, hi, by simp [hlt]⟩

/-- A step that reads nothing through a family leaves its stream alone. -/
theorem other (h : Founded pool families) (hs : Holds pool families f s) {a : PoolStep}
    (ha : a.reading? families f = none) :
    Holds (pool.step a).2 (joinFamily families a) f s := by
  obtain ⟨i, hi, hstream⟩ := hs
  cases a with
  | fresh seed =>
    refine ⟨i, ?_, ?_⟩
    · exact h.mem_zip_append.mpr (.inl hi)
    · simp only [Pool.step]
      rw [List.getElem?_append_left (h.stream_lt f i hi), hstream]
  | share p =>
    obtain ⟨hf, hj⟩ | ⟨g, j, -, hg, hj, -, -⟩ := h.cases p
    · simpa [Pool.step, joinFamily, hf, hj] using ⟨i, hi, hstream⟩
    · refine ⟨i, ?_, ?_⟩
      · simp only [Pool.step, joinFamily, hg, hj, Option.toList_some]
        exact h.mem_zip_append.mpr (.inl hi)
      · simpa [Pool.step, hj] using hstream
  | read p reading =>
    obtain ⟨-, hj⟩ | ⟨g, j, s', hg, hj, hs', hmem⟩ := h.cases p
    · simpa [Pool.step, joinFamily, hj] using ⟨i, hi, hstream⟩
    · have hne : g ≠ f := fun heq => by simp [PoolStep.reading?, hg, heq] at ha
      have hij : j ≠ i := fun heq => hne ((h.same _ _ _ _ hmem hi).mpr heq)
      refine ⟨i, ?_, ?_⟩
      · simpa [Pool.step, joinFamily, hj, hs'] using hi
      · simpa [Pool.step, hj, hs', List.getElem?_set_ne hij] using hstream

/-- A new family has the stream of its seed. -/
theorem fresh (h : Founded pool families) (seed : UInt64) :
    Holds (pool.step (.fresh seed)).2 (joinFamily families (.fresh seed)) families.length
      (Stream.ofSeed seed) :=
  ⟨pool.streams.length, h.mem_zip_append.mpr (.inr ⟨rfl, rfl⟩), by simp [Pool.step]⟩

/-- **The results of a family are those of its readings one after another.** -/
theorem run (h : Founded pool families) (hs : Holds pool families f s) (steps : List PoolStep) :
    results f families steps (pool.run steps).1 =
      (s.readAll (readings f families steps)).1.map .drawn := by
  induction steps generalizing pool families s with
  | nil => rfl
  | cons a rest ih =>
    cases ha : a.reading? families f with
    | none => simpa [results, readings, Pool.run, ha] using ih (h.step a) (hs.other h ha)
    | some reading =>
      obtain ⟨hanswer, hs'⟩ := hs.own h ha
      simpa [results, readings, Pool.run, Stream.readAll, ha, hanswer] using ih (h.step a) hs'

end Holds

/-- Readings through the only provider give what they give one after another. -/
theorem run_single (s : Stream) (rs : List Reading) :
    ((⟨[s], [0]⟩ : Pool).run (rs.map (.read 0))).1 = (s.readAll rs).1.map .drawn := by
  induction rs generalizing s with
  | nil => rfl
  | cons reading rest ih => simp [run, Pool.step, Stream.readAll, ih]

/-- A reading that leaves its stream where it is leaves the pool as it is. -/
theorem step_read_of_kept {reading : Reading} (h : ∀ s : Stream, (s.read reading).2 = s)
    (pool : Pool) (p : Nat) : (pool.step (.read p reading)).2 = pool := by
  simp only [Pool.step]
  split
  · rfl
  · split
    · rfl
    · rename_i i _ s hs
      obtain ⟨hi, rfl⟩ := List.getElem?_eq_some_iff.mp hs
      simp [h]

end Pool

/-! ## Providers made from a seed -/

/-- Provider `f` was made from a seed. -/
def Founds (steps : List PoolStep) (f : Nat) (seed : UInt64) : Prop :=
  (.fresh seed, .provider f) ∈ steps.zip (Pool.empty.run steps).1

theorem answer_fresh (before : List PoolStep) (seed : UInt64) (after : List PoolStep) :
    (Pool.empty.run (before ++ .fresh seed :: after)).1[before.length]? =
      some (.provider (familiesAfter before).length) := by
  have hfounded := Pool.founded_empty.run before
  rw [Pool.run_append, List.getElem?_append_right (Nat.le_of_eq (Pool.length_run _ _)),
    Pool.length_run]
  simp [Pool.run, Pool.step, familiesAfter, hfounded.length]

/-- Its number is the one that its family goes by. -/
theorem founds_iff {steps : List PoolStep} {f : Nat} {seed : UInt64} :
    Founds steps f seed ↔ ∃ before after,
      steps = before ++ .fresh seed :: after ∧ f = (familiesAfter before).length := by
  have hlength := Pool.length_run Pool.empty steps
  constructor
  · intro h
    obtain ⟨before, after, hsplit⟩ := List.append_of_mem h
    have hfst : (steps.zip (Pool.empty.run steps).1).map Prod.fst = steps :=
      List.map_fst_zip (Nat.le_of_eq hlength.symm)
    have hsnd : (steps.zip (Pool.empty.run steps).1).map Prod.snd = (Pool.empty.run steps).1 :=
      List.map_snd_zip (Nat.le_of_eq hlength)
    have hsteps : steps = before.map Prod.fst ++ .fresh seed :: after.map Prod.fst := by
      simpa [hsplit] using hfst.symm
    have hanswers : (Pool.empty.run steps).1 =
        before.map Prod.snd ++ .provider f :: after.map Prod.snd := by
      simpa [hsplit] using hsnd.symm
    refine ⟨_, _, hsteps, ?_⟩
    have hanswer := answer_fresh (before.map Prod.fst) seed (after.map Prod.fst)
    rw [← hsteps, hanswers] at hanswer
    simpa using hanswer
  · rintro ⟨before, after, rfl, rfl⟩
    have hanswer := answer_fresh before seed after
    refine List.mem_iff_getElem?.mpr ⟨before.length, ?_⟩
    simp [List.getElem?_zip_eq_some, hanswer]

/-- It is made all the same with one reading more. -/
theorem Founds.insert {xs ys : List PoolStep} {f : Nat} {seed : UInt64}
    (h : Founds (xs ++ ys) f seed) (p : Nat) (reading : Reading) :
    Founds (xs ++ .read p reading :: ys) f seed := by
  obtain ⟨before, after, heq, rfl⟩ := founds_iff.mp h
  refine founds_iff.mpr ?_
  obtain ⟨c, rfl, rfl⟩ | ⟨c, rfl, hys⟩ := List.append_eq_append_iff.mp heq
  · exact ⟨xs ++ .read p reading :: c, after, by simp, by simp [familiesAfter, joinFamily]⟩
  · cases c with
    | nil =>
      obtain rfl : ys = .fresh seed :: after := hys.symm
      exact ⟨before ++ [.read p reading], after, by simp, by simp [familiesAfter, joinFamily]⟩
    | cons a c =>
      obtain ⟨rfl, rfl⟩ := List.cons.inj hys
      exact ⟨before, c ++ .read p reading :: ys, by simp, rfl⟩

/-- The results of a family are those of its readings from the stream of its seed. -/
theorem Founds.resultsOf_eq {steps : List PoolStep} {f : Nat} {seed : UInt64}
    (h : Founds steps f seed) :
    resultsOf f steps = ((Stream.ofSeed seed).readAll (readingsOf f steps)).1.map .drawn := by
  obtain ⟨before, after, rfl, rfl⟩ := founds_iff.mp h
  have hfounded := Pool.founded_empty.run before
  have hnone : readings (familiesAfter before).length [] before = [] :=
    Pool.founded_empty.readings_eq_nil (Nat.le_refl _)
  have hrun := (Pool.Holds.fresh hfounded seed).run (hfounded.step (.fresh seed)) after
  rw [resultsOf, Pool.run_append, results_append _ _ (Pool.length_run _ _),
    results_eq_nil hnone, readingsOf, readings_append, hnone]
  simpa [results, readings, Pool.run, PoolStep.reading?, familiesAfter] using hrun

/-- **A family is one stream.** `f` is a provider made from a seed. What is read through it and the
providers shared from it, directly or not, gives what the same readings give one after another
through the only provider of this seed. So it is the same in any two runs that read the same, and a
reading through another provider does not show in it. Readings of empty ranges, and of delays
without a whole millisecond of jitter, leave all streams where they are. -/
theorem family_is_one_stream :
    (∀ (steps : List PoolStep) (f : Nat) (seed : UInt64), Founds steps f seed →
      .provider 0 :: resultsOf f steps =
        (Pool.empty.run (.fresh seed :: (readingsOf f steps).map (.read 0))).1) ∧
    (∀ (steps steps' : List PoolStep) (f f' : Nat) (seed : UInt64),
      Founds steps f seed → Founds steps' f' seed → readingsOf f steps = readingsOf f' steps' →
      resultsOf f steps = resultsOf f' steps') ∧
    (∀ (xs ys : List PoolStep) (f : Nat) (seed : UInt64) (p : Nat) (reading : Reading),
      Founds (xs ++ ys) f seed → (familiesAfter xs)[p]? ≠ some f →
      resultsOf f (xs ++ .read p reading :: ys) = resultsOf f (xs ++ ys)) ∧
    (∀ (pool : Pool) (p : Nat) (lo hi : UInt64), hi ≤ lo →
      (pool.step (.read p (.range lo hi))).2 = pool) ∧
    ∀ (pool : Pool) (p : Nat) (policy : BackoffPolicy), policy.jitter.millis = 0 →
      (pool.step (.read p (.delay policy))).2 = pool := by
  refine ⟨fun steps f seed h => ?_, fun steps steps' f f' seed h h' hsame => ?_,
    fun xs ys f seed p reading h hp => ?_, fun pool p lo hi h => ?_, fun pool p policy h => ?_⟩
  · rw [h.resultsOf_eq, ← Pool.run_single]
    rfl
  · rw [h.resultsOf_eq, h'.resultsOf_eq, hsame]
  · rw [(h.insert p reading).resultsOf_eq, h.resultsOf_eq, readingsOf_insert hp]
  · exact Pool.step_read_of_kept (fun s => by simp [Stream.read, Stream.range, h]) pool p
  · exact Pool.step_read_of_kept
      (fun s => by simp [Stream.read, BackoffPolicy.nextDelay_fixed h]) pool p

/-- Two providers of seed 7, and one shared from the first. A fraction is read through the second,
and through the other two a number below 100, an empty range, and again a number below 100. -/
theorem family_is_one_stream_interleaved :
    let steps : List PoolStep := [.fresh 7, .share 0, .fresh 7, .read 2 .ratio,
      .read 1 (.range 0 100), .read 0 (.range 5 5), .read 0 (.range 0 100)]
    Founds steps 0 7 ∧ Founds steps 2 7 ∧
    .provider 0 :: resultsOf 0 steps = (Pool.empty.run [.fresh 7, .read 0 (.range 0 100),
      .read 0 (.range 5 5), .read 0 (.range 0 100)]).1 ∧
    resultsOf 2 steps = resultsOf 0 [.fresh 7, .read 0 .ratio] ∧
    ∀ pool : Pool, (pool.step (.read 0 (.range 5 5))).2 = pool := by
  obtain ⟨halone, hsame, -, hempty, -⟩ := family_is_one_stream
  intro steps
  have h0 : Founds steps 0 7 := founds_iff.mpr ⟨[], _, rfl, rfl⟩
  have h2 : Founds steps 2 7 := founds_iff.mpr ⟨[.fresh 7, .share 0], _, rfl, rfl⟩
  exact ⟨h0, h2, halone steps 0 7 h0,
    hsame steps [.fresh 7, .read 0 .ratio] 2 0 7 h2 (founds_iff.mpr ⟨[], _, rfl, rfl⟩) rfl,
    fun pool => hempty pool 0 5 5 (by decide)⟩

end PaxosLog
