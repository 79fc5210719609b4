import Nerva.Basic
import Nerva.Lib.Shuffle
import Nerva.Lib.Sorting

/-!
# Dandelion++ stems

`connection_map` assigns the sources of transactions to a few outgoing connections, the stems. A
stem whose connection is gone is nil until an update has another connection for its slot; sources
assigned to it are assigned anew when they next ask.
-/

namespace Nerva

abbrev Uuid := ℕ

def nilUuid : Uuid := 0

namespace Dandelionpp

/-- `connection_map`. `std::size_t`'s largest value, which `select_stem` uses for none, is refused
as a number of stems. -/
structure ConnectionMap where
  outMapping : List Uuid
  inMapping : List (Uuid × ℕ)
  usageCount : List ℕ
  deriving DecidableEq, Repr

def leastUsed (usage : List ℕ) : ℕ → List Uuid → Option ℕ → List ℕ → List ℕ
  | _, [], _, choices => choices
  | location, out :: outMap, lowest, choices =>
    if out = nilUuid then leastUsed usage (location + 1) outMap lowest choices
    else
      let used := usage.getD location 0
      match lowest with
      | none => leastUsed usage (location + 1) outMap (some used) [location]
      | some low =>
        if used < low then leastUsed usage (location + 1) outMap (some used) [location]
        else if used = low then leastUsed usage (location + 1) outMap lowest (choices ++ [location])
        else leastUsed usage (location + 1) outMap lowest choices

/-- `select_stem`; `draw` is for `crypto::rand_idx`. -/
def selectStem (usage : List ℕ) (outMap : List Uuid) (draw : ℕ) : Option ℕ :=
  if usage.length < outMap.length then none
  else
    let choices := leastUsed usage 0 outMap none []
    choices[draw % choices.length]?

/-- The first loop of `update`: the slots, the connections that are left, and whether a slot's
connection is gone. -/
def keepLive : List Uuid → List Uuid → List Uuid × List Uuid × Bool
  | [], current => ([], current, false)
  | existing :: outs, current =>
    if existing ∈ current then
      let (outs, current, replace) := keepLive outs (current.erase existing)
      (existing :: outs, current, replace)
    else
      let (outs, current, _) := keepLive outs current
      (nilUuid :: outs, current, true)

/-- The second loop of `update`, over that many slots: nil slots and slots that do not exist yet get
a connection that is left. -/
def fillStems (draws : ℕ → ℕ) : ℕ → List Uuid → List Uuid → List Uuid
  | 0, outs, _ => outs
  | n + 1, [], current =>
    match Shuffle.takeRandom (draws n) current with
    | none => []
    | some (connection, current) => connection :: fillStems draws n [] current
  | n + 1, out :: outs, current =>
    if out = nilUuid then
      match Shuffle.takeRandom (draws n) current with
      | none => out :: outs
      | some (connection, current) => connection :: fillStems draws n outs current
    else out :: fillStems draws n outs current

def insertSource (source : Uuid) (index : ℕ) : List (Uuid × ℕ) → List (Uuid × ℕ)
  | [] => [(source, index)]
  | (other, i) :: rest =>
    if source < other then (source, index) :: (other, i) :: rest
    else (other, i) :: insertSource source index rest

namespace ConnectionMap

/-- The constructor. With no more connections than stems all of them are shuffled. -/
def make (draws : ℕ → ℕ) (outConnections : List Uuid) (stems : ℕ) : ConnectionMap where
  outMapping :=
    (Shuffle.shuffle draws (min stems outConnections.length) 0 outConnections).take stems
  inMapping := []
  usageCount := List.replicate stems 0

def update (draws : ℕ → ℕ) (current : List Uuid) (m : ConnectionMap) : Bool × ConnectionMap :=
  let (outs, current, replace) := keepLive m.outMapping (current.insertionSort (· ≤ ·))
  if !replace && outs.length = m.usageCount.length then (false, { m with outMapping := outs })
  else
    let filled := fillStems draws m.usageCount.length outs current
    (replace || decide (outs.length < filled.length), { m with outMapping := filled })

def size (m : ConnectionMap) : ℕ := m.outMapping.countP fun c => c ≠ nilUuid

def assign (m : ConnectionMap) (index : ℕ) : ConnectionMap :=
  { m with usageCount := m.usageCount.modify index (· + 1) }

def getStem (draw : ℕ) (source : Uuid) (m : ConnectionMap) : Uuid × ConnectionMap :=
  match m.inMapping.lookup source with
  | none =>
    match selectStem m.usageCount m.outMapping draw with
    | none => (nilUuid, m)
    | some index =>
      (m.outMapping.getD index nilUuid,
        { m.assign index with inMapping := insertSource source index m.inMapping })
  | some slot =>
    if m.outMapping.getD slot nilUuid = nilUuid then
      -- the stem's connection is gone
      let m := { m with usageCount := m.usageCount.modify slot (· - 1) }
      match selectStem m.usageCount m.outMapping draw with
      | none => (nilUuid, { m with inMapping := m.inMapping.filter fun e => e.1 ≠ source })
      | some index =>
        (m.outMapping.getD index nilUuid,
          { m.assign index with inMapping := m.inMapping.map fun e =>
              if e.1 = source then (source, index) else e })
    else (m.outMapping.getD slot nilUuid, m)

end ConnectionMap

inductive Op
  | update (draws : ℕ → ℕ) (current : List Uuid)
  | getStem (draw : ℕ) (source : Uuid)

structure Stems where
  map : ConnectionMap
  connections : List Uuid

namespace Stems

def make (draws : ℕ → ℕ) (connections : List Uuid) (stems : ℕ) : Stems :=
  ⟨.make draws connections stems, connections⟩

def step (s : Stems) : Op → Stems
  | .update draws current => ⟨(s.map.update draws current).2, current⟩
  | .getStem draw source => { s with map := (s.map.getStem draw source).2 }

def run (s : Stems) (ops : List Op) : Stems := ops.foldl step s

end Stems

end Dandelionpp

end Nerva
