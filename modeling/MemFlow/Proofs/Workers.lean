import MemFlow.Proofs.Checks
import MemFlow.Proofs.PathExactness

/-!
# Who finds the effects of blocks

The blocks of a graph can be shared out among workers, each with a memo that it
carries from block to block. A memo remembers nothing but what the registry would
answer, so any two of them lead to the same effect of a block. What the workers find
together is then what one of them finds alone, whoever takes which block, and when.
-/

namespace MemFlow

/-! ## Workers -/

/-- A worker takes up the block at a position. -/
structure Turn (n : Nat) where
  worker : Nat
  position : Fin n
deriving DecidableEq, Repr

/-- Workers with a memo each, and the effects found so far, by position. -/
structure Pool (n : Nat) where
  memos : Nat → ClosureMemo
  found : Fin n → Option Effect

namespace Pool

variable {n : Nat}

/-- Nobody has been asked anything, and nothing is found. -/
def new (r : Registry) (strict : Bool) : Pool n :=
  ⟨fun _ => { registry := r, strict }, fun _ => none⟩

/-- A worker finds the effect of the block at a position, with its own memo. -/
def turn (g : FlowGraph) (inv : Inventory) (p : Pool g.blocks.length)
    (t : Turn g.blocks.length) : Except AnalysisError (Pool g.blocks.length) :=
  match Effect.ofBlock g inv (p.memos t.worker) (g.blocks.get t.position) with
  | .error e => .error e
  | .ok (m, effect) =>
    .ok ⟨Function.update p.memos t.worker m, Function.update p.found t.position (some effect)⟩

/-- Turns in the order in which they are taken, up to the first that fails. -/
def run (g : FlowGraph) (inv : Inventory) (p : Pool g.blocks.length) :
    List (Turn g.blocks.length) → Except AnalysisError (Pool g.blocks.length)
  | [] => .ok p
  | t :: turns =>
    match p.turn g inv t with
    | .error e => .error e
    | .ok p' => p'.run g inv turns

/-- What has been found, in the order of the blocks. -/
def collected (p : Pool n) : List (Option Effect) := List.ofFn p.found

end Pool

/-- A memo that was made new and then carried through some blocks. -/
inductive ClosureMemo.Carried (g : FlowGraph) (inv : Inventory) (r : Registry) (strict : Bool) :
    ClosureMemo → Prop
  | new : Carried g inv r strict { registry := r, strict }
  | block {m m' : ClosureMemo} {b : BlockId} {effect : Effect} (before : Carried g inv r strict m)
      (found : Effect.ofBlock g inv m b = .ok (m', effect)) : Carried g inv r strict m'

/-! ## Any memo will do -/

variable {g : FlowGraph} {inv : Inventory} {r : Registry} {strict : Bool}

namespace Effect

/-- Two memos over one registry led to the same effect, or to the same error. -/
inductive Alike (r : Registry) (strict : Bool) :
    Except AnalysisError (ClosureMemo × Effect) → Except AnalysisError (ClosureMemo × Effect) → Prop
  | ok {m n : ClosureMemo} {effect : Effect} (hm : m.Answers r strict) (hn : n.Answers r strict) :
      Alike r strict (.ok (m, effect)) (.ok (n, effect))
  | error {e : AnalysisError} : Alike r strict (.error e) (.error e)

variable {m n : ClosureMemo}

theorem ofStmt_alike (hm : m.Answers r strict) (hn : n.Answers r strict) (s : StmtId) :
    Alike r strict (ofStmt g inv m s) (ofStmt g inv n s) := by
  unfold ofStmt
  cases inv.def? s with
  | none => exact .ok hm hn
  | some d =>
    obtain ⟨hm', same⟩ := ClosureMemo.askSet_alike hm hn d.written
    obtain ⟨hn', -⟩ := ClosureMemo.askSet_alike hn hm d.written
    rcases asked : m.askSet d.written with ⟨m', answer⟩
    rcases asked' : n.askSet d.written with ⟨n', answer'⟩
    rw [asked] at hm' same
    rw [asked'] at hn' same
    obtain rfl : answer = answer' := same
    simp only [asked, asked', hm.registry_eq, hn.registry_eq]
    cases answer with
    | error e => exact .error
    | ok closure =>
      dsimp only
      cases ofDefinition g inv r d closure with
      | error e => exact .error
      | ok effect => exact .ok hm' hn'

theorem ofStmts_alike (hm : m.Answers r strict) (hn : n.Answers r strict) (ss : List StmtId)
    (acc : Effect) : Alike r strict (ofStmts g inv m acc ss) (ofStmts g inv n acc ss) := by
  induction ss generalizing m n acc with
  | nil => exact .ok hm hn
  | cons s ss ih =>
    have first : Alike r strict (ofStmt g inv m s) (ofStmt g inv n s) := ofStmt_alike hm hn s
    unfold ofStmts
    revert first
    generalize ofStmt g inv m s = x
    generalize ofStmt g inv n s = y
    intro first
    cases first with
    | error => exact .error
    | ok hm' hn' => exact ih hm' hn' _

/-- The effect that every memo over the registry leads to for a block. -/
def Settles (g : FlowGraph) (inv : Inventory) (r : Registry) (strict : Bool) (b : BlockId)
    (effect : Effect) : Prop :=
  ∀ m : ClosureMemo, m.Answers r strict →
    ∃ m', ofBlock g inv m b = .ok (m', effect) ∧ m'.Answers r strict

/-- **The effect of a block does not depend on the memo.** -/
theorem exists_settles (hinv : Inventory.ofFlowGraph g r = .ok inv) (strict : Bool) (b : BlockId) :
    ∃ effect, Settles g inv r strict b effect := by
  obtain ⟨m₀, effect, found, -⟩ := ofBlock_ok (g := g)
    (fun d hd => Inventory.known_of_mem hinv hd) (ClosureMemo.answers_new r strict) b
  refine ⟨effect, ?_⟩
  -- A new memo leads to an effect, and any other memo fares like the new one.
  intro m hm
  have alike : Alike r strict (ofBlock g inv m b) (ofBlock g inv _ b) :=
    ofStmts_alike hm (ClosureMemo.answers_new r strict) (g.stmts b) {}
  rw [found] at alike
  cases h : ofBlock g inv m b with
  | error e =>
    rw [h] at alike
    cases alike
  | ok result =>
    obtain ⟨m', effect'⟩ := result
    rw [h] at alike
    cases alike with
    | ok hm' _ => exact ⟨m', rfl, hm'⟩

variable {effectOf : BlockId → Effect}

theorem ofBlocks_eq (settles : ∀ b, Settles g inv r strict b (effectOf b))
    (hm : m.Answers r strict) (bs : List BlockId) :
    ofBlocks g inv m bs = .ok (bs.map effectOf) := by
  induction bs generalizing m with
  | nil => rfl
  | cons b bs ih =>
    obtain ⟨m', found, hm'⟩ := settles b m hm
    simp only [ofBlocks, found, ih hm', List.map_cons]

theorem ofBlocksApart_eq (settles : ∀ b, Settles g inv r strict b (effectOf b))
    (hm : m.Answers r strict) (bs : List BlockId) :
    ofBlocksApart g inv m bs = .ok (bs.map effectOf) := by
  induction bs with
  | nil => rfl
  | cons b bs ih =>
    obtain ⟨m', found, -⟩ := settles b m hm
    simp only [ofBlocksApart, found, ih, List.map_cons]

theorem ofFlowGraph_eq (settles : ∀ b, Settles g inv r strict b (effectOf b)) (parallel : Bool) :
    ofFlowGraph g inv r strict parallel = .ok (g.blocks.map effectOf) := by
  have hm := ClosureMemo.answers_new r strict
  cases parallel with
  | false => exact ofBlocks_eq settles hm g.blocks
  | true => exact ofBlocksApart_eq settles hm g.blocks

end Effect

theorem ClosureMemo.Carried.answers
    (settles : ∀ b, ∃ effect, Effect.Settles g inv r strict b effect)
    {m : ClosureMemo} (h : m.Carried g inv r strict) : m.Answers r strict := by
  induction h with
  | new => exact answers_new r strict
  | @block m m' b effect _ found hm =>
    obtain ⟨effect', hb⟩ := settles b
    obtain ⟨m'', again, hm''⟩ := hb m hm
    rw [found] at again
    cases again
    exact hm''

/-! ## What a pool of workers finds -/

namespace Pool

/-- Every memo answers as the registry does, and the effects of the blocks at `taken` are
found. -/
structure Sound (g : FlowGraph) (r : Registry) (strict : Bool) (effectOf : BlockId → Effect)
    (taken : List (Fin g.blocks.length)) (p : Pool g.blocks.length) : Prop where
  memos : ∀ w, (p.memos w).Answers r strict
  found : ∀ i ∈ taken, p.found i = some (effectOf (g.blocks.get i))

variable {effectOf : BlockId → Effect} {taken : List (Fin g.blocks.length)}
  {p : Pool g.blocks.length}

theorem sound_new : Sound g r strict effectOf [] (new r strict) :=
  ⟨fun _ => ClosureMemo.answers_new r strict, by simp⟩

theorem Sound.turn (settles : ∀ b, Effect.Settles g inv r strict b (effectOf b))
    (sound : Sound g r strict effectOf taken p) (t : Turn g.blocks.length) :
    ∃ p', p.turn g inv t = .ok p' ∧ Sound g r strict effectOf (t.position :: taken) p' := by
  obtain ⟨m', found, hm'⟩ := settles (g.blocks.get t.position) _ (sound.memos t.worker)
  unfold Pool.turn
  rw [found]
  refine ⟨_, rfl, ?_, ?_⟩
  · intro w
    by_cases own : w = t.worker
    · rw [own]
      simpa using hm'
    · simpa [own] using sound.memos w
  · intro i hi
    by_cases here : i = t.position
    · simp [here]
    · simpa [here] using sound.found i ((List.mem_cons.mp hi).resolve_left here)

theorem Sound.run (settles : ∀ b, Effect.Settles g inv r strict b (effectOf b))
    (sound : Sound g r strict effectOf taken p) (turns : List (Turn g.blocks.length)) :
    ∃ p', p.run g inv turns = .ok p' ∧
      Sound g r strict effectOf ((turns.map (·.position)).reverse ++ taken) p' := by
  induction turns generalizing p taken with
  | nil => exact ⟨p, rfl, sound⟩
  | cons t turns ih =>
    obtain ⟨p₁, first, sound₁⟩ := sound.turn settles t
    obtain ⟨p', rest, sound'⟩ := ih sound₁
    exact ⟨p', by simp only [Pool.run, first, rest], by simpa using sound'⟩

theorem Sound.collected (sound : Sound g r strict effectOf taken p) (all : ∀ i, i ∈ taken) :
    p.collected = (g.blocks.map effectOf).map some := by
  have found : p.found = fun i => some (effectOf (g.blocks.get i)) :=
    funext fun i => sound.found i (all i)
  calc p.collected = List.ofFn fun i => some (effectOf (g.blocks.get i)) := by
        rw [Pool.collected, found]
    _ = ((List.ofFn g.blocks.get).map effectOf).map some := by
        rw [List.map_ofFn, List.map_ofFn]
        rfl
    _ = (g.blocks.map effectOf).map some := by
        rw [List.ofFn_get]

end Pool

/-- **The effects do not depend on who finds them.** For every graph and registry that pass
the checks, and under either reading of overlap, each block has one effect. Going through the
blocks with one memo finds these effects, and so does making a memo for each. Workers that take
turns in any order, each with a memo of its own, find them too once every block has been
taken. Any memo that was carried through blocks of the graph leads to them. -/
theorem effects_independent_of_workers (hinv : Inventory.ofFlowGraph g r = .ok inv)
    (strict : Bool) :
    ∃ effectOf : BlockId → Effect,
      (∀ parallel, Effect.ofFlowGraph g inv r strict parallel = .ok (g.blocks.map effectOf)) ∧
      (∀ turns : List (Turn g.blocks.length), (∀ i, i ∈ turns.map (·.position)) →
        ∃ p, (Pool.new r strict).run g inv turns = .ok p ∧
          p.collected = (g.blocks.map effectOf).map some) ∧
      ∀ m, ClosureMemo.Carried g inv r strict m → ∀ b, ∃ m',
        Effect.ofBlock g inv m b = .ok (m', effectOf b) := by
  choose effectOf settles using Effect.exists_settles hinv strict
  refine ⟨effectOf, Effect.ofFlowGraph_eq settles, ?_, ?_⟩
  · intro turns all
    obtain ⟨p, done, sound⟩ := Pool.sound_new.run settles turns
    exact ⟨p, done, sound.collected (by simpa using all)⟩
  · intro m carried b
    have hm := carried.answers (fun b => ⟨effectOf b, settles b⟩)
    obtain ⟨m', found, -⟩ := settles b m hm
    exact ⟨m', found⟩

def relayInventory : Inventory := .ofStmts relay relay.allStmts

/-- One worker takes the last block and then the first, another the one in between. -/
def relayTurns : List (Turn relay.blocks.length) :=
  [⟨5, ⟨2, by decide⟩⟩, ⟨1, ⟨1, by decide⟩⟩, ⟨5, ⟨0, by decide⟩⟩]

theorem relay_shared_out :
    Inventory.ofFlowGraph relay relayRegistry = .ok relayInventory ∧
    (∀ i, i ∈ relayTurns.map (·.position)) ∧
    ∃ p, (Pool.new relayRegistry true).run relay relayInventory relayTurns = .ok p ∧
      p.collected.map (·.map (·.mayKilled)) =
        [some (.ofList [1, 2, 3]), some (.ofList [0, 2, 3]), some (.ofList [1, 2, 3])] := by
  have hinv : Inventory.ofFlowGraph relay relayRegistry = .ok relayInventory := by rfl
  have all : ∀ i, i ∈ relayTurns.map (·.position) := by decide
  obtain ⟨effectOf, alone, shared, -⟩ := effects_independent_of_workers hinv true
  obtain ⟨p, done, collected⟩ := shared relayTurns all
  have kills : (Effect.ofFlowGraph relay relayInventory relayRegistry true false).toOption.map
      (·.map (·.mayKilled)) =
        some [.ofList [1, 2, 3], .ofList [0, 2, 3], .ofList [1, 2, 3]] := by
    decide +kernel
  rw [alone false] at kills
  refine ⟨hinv, all, p, done, ?_⟩
  have listed := congrArg (List.map some) (Option.some.inj kills)
  rw [List.map_map] at listed
  rw [collected, List.map_map]
  exact listed

end MemFlow
