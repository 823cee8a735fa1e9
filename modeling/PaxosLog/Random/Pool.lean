import PaxosLog.Random.Stream
import PaxosLog.Backoff

/-!
# Providers that share streams

A provider is a handle on a stream. Providers made by sharing read the same stream, each taking up
where the last reader stopped; providers made from a seed read a stream of their own, also if the
seed was used before. `Pool` keeps the streams and says which one each provider reads.

`PoolStep` lists what can be done with seeded providers: to make one from a seed, to make one by
cloning another, and to read from one (`Reading`). `Pool.step` does it, and `Pool.run` one after
another.
-/

namespace PaxosLog

/-- One reading from a stream. -/
inductive Reading where
  | range (lo hi : UInt64)
  | ratio
  | chance (probability : Float)
  | delay (policy : BackoffPolicy)

/-- What a reading gives. -/
inductive Drawn where
  | number (n : UInt64)
  | verdict (b : Bool)
  | delay (d : Duration)
  | fault (f : Fault)
deriving DecidableEq, Repr

/-- Reads from a stream. -/
def Stream.read (s : Stream) : Reading → Drawn × Stream
  | .range lo hi =>
    match s.range lo hi with
    | (.ok n, s) => (.number n, s)
    | (.error f, s) => (.fault f, s)
  | .ratio => let (n, s) := s.ratio; (.number n, s)
  | .chance probability => let (b, s) := s.chance probability; (.verdict b, s)
  | .delay policy =>
    match policy.nextDelay s with
    | (.ok d, s) => (.delay d, s)
    | (.error f, s) => (.fault f, s)

/-- Streams, and for each provider the index of the stream it reads. -/
structure Pool where
  streams : List Stream
  providers : List Nat
deriving DecidableEq

/-- What can be done with a pool of providers. -/
inductive PoolStep where
  /-- A new provider with a stream of its own. -/
  | fresh (seed : UInt64)
  /-- A new provider that reads the stream of `provider`. -/
  | share (provider : Nat)
  /-- A reading through `provider`. -/
  | read (provider : Nat) (reading : Reading)

/-- What a step with a pool answers. -/
inductive PoolAnswer where
  /-- The number of a new provider. -/
  | provider (number : Nat)
  /-- The result of a reading. -/
  | drawn (result : Drawn)
  /-- There is no such provider. -/
  | unknown
deriving DecidableEq, Repr

namespace Pool

/-- No providers. -/
def empty : Pool := ⟨[], []⟩

/-- Carries out one step. -/
def step (pool : Pool) : PoolStep → PoolAnswer × Pool
  | .fresh seed =>
    (.provider pool.providers.length,
      ⟨pool.streams ++ [Stream.ofSeed seed], pool.providers ++ [pool.streams.length]⟩)
  | .share provider =>
    match pool.providers[provider]? with
    | some i => (.provider pool.providers.length, ⟨pool.streams, pool.providers ++ [i]⟩)
    | none => (.unknown, pool)
  | .read provider reading =>
    match pool.providers[provider]? with
    | none => (.unknown, pool)
    | some i =>
      match pool.streams[i]? with
      | none => (.unknown, pool)
      | some stream =>
        let (result, stream) := stream.read reading
        (.drawn result, { pool with streams := pool.streams.set i stream })

/-- Carries out steps in order and lists their answers. -/
def run (pool : Pool) : List PoolStep → List PoolAnswer × Pool
  | [] => ([], pool)
  | s :: rest =>
    let (answer, pool) := pool.step s
    let (answers, pool) := pool.run rest
    (answer :: answers, pool)

end Pool

end PaxosLog
