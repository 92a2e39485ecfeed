import Canchain.CliqueHeap
import Canchain.CliqueVotes

/-!
`Clique.snapshot` walks back to a snapshot in the cache, in the database or at genesis and
replays the headers on the way. Whatever earlier calls left there, the outcome is the replay of
all headers since genesis. The cache may drop any snapshot when one is added, and snapshots are
values, as none that a pointer shows is changed (`apply_on_heap`).
-/
namespace Canchain.Clique
open Rlp Common Types Runs List Option

/-- `consensus.ChainReader`, as far as the engine reads it. -/
structure ChainReader where
  getHeader : Hash → Nat → Option Header
  getHeaderByNumber : Nat → Option Header
/-- The snapshots of the engine: those in the cache and those in the database. -/
structure Engine where
  recents : List (Hash × Snapshot)
  db : Hash → Option Snapshot
/-- A call of `snapshot`, with what it meets: the chain, what the cache keeps besides
    the new snapshot, and whether the database takes the snapshots of a checkpoint
    and of the call. -/
structure Call where
  chain : ChainReader
  number : Nat
  hash : Hash
  parents : List Header
  keep : Hash → Bool
  checkpointPut : Bool
  snapshotPut : Bool
inductive CallError where
  | clique (err : CliqueError)
  /-- The database failed. -/
  | put
  /-- A slice of negative length. -/
  | panics
  /-- The walk did not end. -/
  | fuel
  deriving DecidableEq

def checkpointInterval : Nat := 1024
/-- The signers in the extra data of a checkpoint; `none` if their number is negative. -/
def checkpointSigners (extra : Bytes) : Option (List Address) :=
  if extra.length + 20 ≤ extraVanity + extraSeal then none
  else some ((List.range ((extra.length - extraVanity - extraSeal) / 20)).map fun i =>
    bytesToAddress ((extra.drop (extraVanity + i*20)).take 20))

namespace Engine

def get (e : Engine) (hash : Hash) : Option Snapshot := (e.recents.find? fun r => r.1 = hash).map (·.2)
def add (e : Engine) (keep : Hash → Bool) (hash : Hash) (s : Snapshot) : Engine :=
  { e with recents := (hash,s) :: e.recents.filter fun r => r.1 ≠ hash ∧ keep r.1 }
/-- `Snapshot.store` -/
def store (e : Engine) (s : Snapshot) : Engine := { e with db := Function.update e.db s.hash (some s) }

/-- `loadSnapshot`, tried for every block of the interval. -/
def load (e : Engine) (number : Nat) (hash : Hash) : Option Snapshot :=
  if number % checkpointInterval = 0 then e.db hash else none
/-- The header from which the signers are read instead of a snapshot. -/
def checkpoint (cfg : CliqueConfig) (chain : ChainReader) (number : Nat) : Option Header :=
  if number = 0 ∨ (number % cfg.epoch = 0 ∧ chain.getHeaderByNumber (number - 1) = none) then chain.getHeaderByNumber number
  else none
/-- The header to replay, from the parents as long as there are any. -/
def step (crypto : Crypto) (chain : ChainReader) (number : Nat) (hash : Hash) (parents : List Header) :
    Option (Header × List Header) :=
  match parents.getLast? with
  | some header =>
    if header.hash crypto.keccak ≠ hash ∨ header.numberU64 ≠ number then none else some (header,parents.dropLast)
  | none => (chain.getHeader hash number).map fun header => (header,[])

/-- The loop of `snapshot`: the snapshot it starts from and the headers to replay. -/
def walk (crypto : Crypto) (cfg : CliqueConfig) (call : Call) (e : Engine) :
    Nat → Nat → Hash → List Header → List Header → Except CallError (Engine × Snapshot × List Header)
  | 0, _, _, _, _ => .error .fuel
  | fuel + 1, number, hash, parents, headers =>
    match e.get hash with
    | some s => .ok (e,s,headers)
    | none =>
      match e.load number hash with
      | some s => .ok (e,s,headers)
      | none =>
        match checkpoint cfg call.chain number with
        | some header =>
          match checkpointSigners header.extra with
          | none => .error .panics
          | some signers =>
            let s := newSnapshot number (header.hash crypto.keccak) signers
            if call.checkpointPut then .ok (e.store s,s,headers) else .error .put
        | none =>
          match step crypto call.chain number hash parents with
          | none => .error (.clique .unknownAncestor)
          | some (header,parents) => walk crypto cfg call e fuel (sub64 number 1) header.parentHash parents (header :: headers)
def snapshot (crypto : Crypto) (cfg : CliqueConfig) (e : Engine) (call : Call) : Engine × Except CallError Snapshot :=
  match walk crypto cfg call e (call.number + 1) call.number call.hash call.parents [] with
  | .error err => (e,.error err)
  | .ok (e,s,headers) =>
    match s.apply crypto cfg headers with
    | .error err => (e,.error (.clique err))
    | .ok s =>
      let e := e.add call.keep s.hash s
      if s.number % checkpointInterval = 0 ∧ 0 < headers.length then
        if call.snapshotPut then (e.store s,.ok s) else (e,.error .put)
      else (e,.ok s)

/-- The engine after `New`, and after calls. -/
def new : Engine := ⟨[],fun _ => none⟩
def run (crypto : Crypto) (cfg : CliqueConfig) (calls : List Call) : Engine :=
  calls.foldl (fun e call => (e.snapshot crypto cfg call).1) new

end Engine
variable {headers past : List Header} {parent : Hash} {number : Nat} {header : Header}

section
variable (crypto : Crypto)

/-- Headers on top of a block, one after the other. -/
def Linked : Hash → Nat → List Header → Prop
  | _, _, [] => True
  | parent, number, header :: headers =>
    header.parentHash = parent ∧ header.numberU64 = number + 1 ∧ Linked (header.hash crypto.keccak) (number + 1) headers
/-- The hash of the last block. -/
def tip (parent : Hash) (headers : List Header) : Hash := (headers.getLast?).elim parent fun h => h.hash crypto.keccak

variable {crypto}

@[simp] theorem tip_nil (parent : Hash) : tip crypto parent [] = parent := rfl
@[simp] theorem tip_snoc (parent : Hash) (headers : List Header) (header : Header) :
    tip crypto parent (headers ++ [header]) = header.hash crypto.keccak := by simp [tip]
theorem tip_cons (parent : Hash) (header : Header) (headers : List Header) :
    tip crypto parent (header :: headers) = tip crypto (header.hash crypto.keccak) headers := by
  cases headers with
  | nil => rfl
  | cons second rest =>
    simp only [tip,getLast?_cons_cons]
    cases last : (second :: rest).getLast? with
    | none => simp at last
    | some h => rfl
theorem tip_other (some : headers ≠ []) (parent parent' : Hash) :
    tip crypto parent headers = tip crypto parent' headers := by
  cases headers with
  | nil => exact absurd rfl some
  | cons header headers => rw [tip_cons,tip_cons]
theorem linked_append :
    Linked crypto parent number (past ++ headers) ↔
      Linked crypto parent number past ∧ Linked crypto (tip crypto parent past) (number + past.length) headers := by
  induction past generalizing parent number with
  | nil => simp [Linked]
  | cons header past ih =>
    simp [Linked,ih,tip_cons,and_assoc,Nat.add_assoc,Nat.add_comm 1]
theorem linked_snoc :
    Linked crypto parent number (past ++ [header]) ↔ Linked crypto parent number past ∧
      header.parentHash = tip crypto parent past ∧ header.numberU64 = number + past.length + 1 := by
  simp [linked_append,Linked]
end

/-! ### What the engine keeps -/

/-- The genesis block, among headers no two of which have the same hash. -/
structure Ground (crypto : Crypto) (genesis : Header) (signers : List Address) (all : Set Header) : Prop where
  member : genesis ∈ all
  number : genesis.numberU64 = 0
  signers : checkpointSigners genesis.extra = some signers
  distinct : ∀ a ∈ all, ∀ b ∈ all, a.hash crypto.keccak = b.hash crypto.keccak → a = b
/-- A call over a chain with this genesis block and no gap in its numbers, and headers that
    are found by their own hash and number. -/
structure Honest (crypto : Crypto) (genesis : Header) (all : Set Header) (call : Call) : Prop where
  number : call.number < 2^64
  found : ∀ hash number header, call.chain.getHeader hash number = some header →
    header ∈ all ∧ header.hash crypto.keccak = hash ∧ header.numberU64 = number
  parents : ∀ header ∈ call.parents, header ∈ all
  genesis : call.chain.getHeaderByNumber 0 = some genesis
  gapless : ∀ number, call.chain.getHeaderByNumber number = none → call.chain.getHeaderByNumber (number + 1) = none
/-- The snapshot is the replay of the headers, the last of which has the hash. -/
structure Replays (crypto : Crypto) (cfg : CliqueConfig) (genesis : Header) (signers : List Address) (all : Set Header)
    (hash : Hash) (s : Snapshot) (past : List Header) : Prop where
  within : ∀ header ∈ past, header ∈ all
  linked : ∃ parent, Linked crypto parent 0 past
  hash : hash = tip crypto (genesis.hash crypto.keccak) past
  applied : (newSnapshot 0 (genesis.hash crypto.keccak) signers).apply crypto cfg past = .ok s
/-- All snapshots of the engine are replays. -/
structure Faithful (crypto : Crypto) (cfg : CliqueConfig) (genesis : Header) (signers : List Address) (all : Set Header)
    (e : Engine) : Prop where
  recents : ∀ r ∈ e.recents, ∃ past, Replays crypto cfg genesis signers all r.1 r.2 past
  db : ∀ hash s, e.db hash = some s → ∃ past, Replays crypto cfg genesis signers all hash s past

variable {cfg : CliqueConfig} {s : Snapshot}
theorem replay_ends {crypto : Crypto} {hash : Hash} {signers : List Address}
    (applied : (newSnapshot 0 hash signers).apply crypto cfg past = .ok s) :
    s.hash = tip crypto hash past ∧ s.number = past.length % 2^64 := by
  refine foldlM_history (fun past s => s.hash = tip crypto hash past ∧ s.number = past.length % 2^64) ?_ past
    ⟨rfl,rfl⟩ (Snapshot.apply_ok.mp applied)
  intro past header s t good advanced
  obtain ⟨next,u,-,rfl⟩ := Snapshot.advance_ok.mp advanced
  refine ⟨(tip_snoc hash past header).symm,?_⟩
  show header.numberU64 = _
  rw [next,good.2,length_append,length_singleton,Nat.mod_add_mod]
variable {t : Snapshot}
theorem apply_append {crypto : Crypto} {first second : List Header} :
    s.apply crypto cfg (first ++ second) = .ok t ↔
      ∃ u, s.apply crypto cfg first = .ok u ∧ u.apply crypto cfg second = .ok t := by
  simp only [Snapshot.apply_ok,foldlM_append]
  constructor
  · intro ran
    obtain ⟨u,before,after⟩ := bind_ok ran
    exact ⟨u,before,after⟩
  · rintro ⟨u,before,after⟩
    rw [before]
    exact after
variable {fuel : Nat} {known : List Header}

section
variable {crypto : Crypto} {genesis : Header} {signers : List Address} {all : Set Header}

variable {parents rest : List Header} {e : Engine} {hash : Hash} {call : Call}
/-- A hash is the end of one chain only. -/
theorem linked_unique (ground : Ground crypto genesis signers all) {past' : List Header} {parent' : Hash}
    (within : ∀ header ∈ past, header ∈ all) (within' : ∀ header ∈ past', header ∈ all)
    (linked : Linked crypto parent 0 past) (linked' : Linked crypto parent' 0 past')
    (same : tip crypto (genesis.hash crypto.keccak) past = tip crypto (genesis.hash crypto.keccak) past') : past = past' := by
  induction past using reverseRecOn generalizing past' with
  | nil =>
    rcases eq_nil_or_concat' past' with rfl | ⟨rest,last,rfl⟩
    · rfl
    · rw [tip_nil,tip_snoc] at same
      have again := ground.distinct _ ground.member last (within' last (by simp)) same
      have number := (linked_snoc.mp linked').2.2
      rw [← again,ground.number] at number
      omega
  | append_singleton past header ih =>
    rcases eq_nil_or_concat' past' with rfl | ⟨rest,last,rfl⟩
    · rw [tip_nil,tip_snoc] at same
      have again := ground.distinct _ (within header (by simp)) _ ground.member same
      have number := (linked_snoc.mp linked).2.2
      rw [again,ground.number] at number
      omega
    · rw [tip_snoc,tip_snoc] at same
      obtain rfl := ground.distinct header (within header (by simp)) last (within' last (by simp)) same
      obtain ⟨before,hash,number⟩ := linked_snoc.mp linked
      obtain ⟨before',hash',number'⟩ := linked_snoc.mp linked'
      have lengths : past.length = rest.length := by omega
      have parents : past = rest := by
        by_cases empty : past = []
        · subst empty
          exact (length_eq_zero_iff.mp lengths.symm).symm
        · have empty' : rest ≠ [] := by
            rintro rfl
            exact empty (length_eq_zero_iff.mp lengths)
          refine ih (fun h member => within h (by simp [member])) (fun h member => within' h (by simp [member])) before before' ?_
          rw [tip_other empty _ parent,tip_other empty' _ parent',← hash,← hash']
      rw [parents]
open Engine

theorem faithful_new : Faithful crypto cfg genesis signers all new := ⟨nofun,nofun⟩
variable (faithful : Faithful crypto cfg genesis signers all e)
include faithful
theorem faithful_get (got : e.get hash = some s) : ∃ past, Replays crypto cfg genesis signers all hash s past := by
  unfold Engine.get at got
  obtain ⟨r,found,rfl⟩ := map_eq_some_iff.mp got
  have same : r.1 = hash := by simpa using find?_some found
  exact same ▸ faithful.recents r (mem_of_find?_eq_some found)
theorem faithful_load
    (loaded : e.load number hash = some s) : ∃ past, Replays crypto cfg genesis signers all hash s past := by
  unfold load at loaded
  split at loaded
  · exact faithful.db hash s loaded
  · cases loaded
theorem faithful_add (keep : Hash → Bool) (replays : ∃ past, Replays crypto cfg genesis signers all hash s past) :
    Faithful crypto cfg genesis signers all (e.add keep hash s) := by
  refine ⟨?_,faithful.db⟩
  intro r member
  rcases mem_cons.mp member with rfl | earlier
  · exact replays
  · exact faithful.recents r (mem_of_mem_filter earlier)
theorem faithful_store (replays : ∃ past, Replays crypto cfg genesis signers all s.hash s past) :
    Faithful crypto cfg genesis signers all (e.store s) := by
  refine ⟨faithful.recents,?_⟩
  intro hash t stored
  by_cases same : hash = s.hash
  · subst same
    simp only [store,Function.update_self,some.injEq] at stored
    exact stored ▸ replays
  · simp only [store,Function.update_of_ne same] at stored
    exact faithful.db hash t stored
omit faithful
theorem replays_genesis : Replays crypto cfg genesis signers all (genesis.hash crypto.keccak)
    (newSnapshot 0 (genesis.hash crypto.keccak) signers) [] :=
  ⟨nofun,⟨genesis.hash crypto.keccak,trivial⟩,rfl,rfl⟩

/-- Only the genesis block is taken for a checkpoint. -/
theorem checkpoint_genesis (honest : Honest crypto genesis all call) (number : Nat) :
    checkpoint cfg call.chain number = if number = 0 then some genesis else none := by
  unfold checkpoint
  by_cases zero : number = 0
  · rw [if_pos (Or.inl zero),if_pos zero,zero,honest.genesis]
  · rw [if_neg zero]
    split
    · rename_i either
      rcases either with zero' | ⟨-,none⟩
      · exact absurd zero' zero
      · have next := honest.gapless _ none
        rwa [Nat.sub_add_cancel (Nat.pos_of_ne_zero zero)] at next
    · rfl
/-- A header that the walk goes over is the one that it looks for. -/
theorem step_found (honest : Honest crypto genesis all call)
    (within : ∀ header ∈ parents, header ∈ all)
    (stepped : step crypto call.chain number hash parents = some (header,rest)) :
    header ∈ all ∧ header.hash crypto.keccak = hash ∧ header.numberU64 = number ∧ ∀ header ∈ rest, header ∈ all := by
  unfold step at stepped
  split at stepped
  · rename_i last found
    split at stepped
    · cases stepped
    · rename_i matches_
      simp only [some.injEq,Prod.mk.injEq] at stepped
      obtain ⟨rfl,rfl⟩ := stepped
      push Not at matches_
      exact ⟨within _ (mem_of_getLast? found),matches_.1,matches_.2,fun h member => within h (mem_of_mem_dropLast member)⟩
  · obtain ⟨found,got,same⟩ := map_eq_some_iff.mp stepped
    simp only [Prod.mk.injEq] at same
    obtain ⟨rfl,rfl⟩ := same
    obtain ⟨member,hashes,numbers⟩ := honest.found _ _ _ got
    exact ⟨member,hashes,numbers,nofun⟩

/-- Where the walk stops, for whatever it was called with: at the replay of some headers, and
    the headers it went over are on top of them, or of any block with the number zero. -/
theorem walk_found (ground : Ground crypto genesis signers all)
    (honest : Honest crypto genesis all call) (faithful : Faithful crypto cfg genesis signers all e)
    (headers : List Header) (small : number < 2^64)
    (within : ∀ header ∈ parents, header ∈ all) (held : ∀ header ∈ headers, header ∈ all)
    (linked : Linked crypto hash number headers) {e' : Engine}
    (walked : walk crypto cfg call e fuel number hash parents headers = .ok (e',s,rest)) :
    Faithful crypto cfg genesis signers all e' ∧ (∀ header ∈ rest, header ∈ all) ∧
      ∃ past stop at_, Replays crypto cfg genesis signers all s.hash s past ∧ Linked crypto at_ stop rest ∧
        (at_ = tip crypto (genesis.hash crypto.keccak) past ∨ past = []) := by
  induction fuel generalizing number hash parents headers with
  | zero => cases walked
  | succ fuel ih =>
    unfold walk at walked
    have stops {t : Snapshot} (replays : ∃ past, Replays crypto cfg genesis signers all hash t past)
        (same : (.ok (e,t,headers) : Except CallError _) = .ok (e',s,rest)) :
        Faithful crypto cfg genesis signers all e' ∧ (∀ header ∈ rest, header ∈ all) ∧
          ∃ past stop at_, Replays crypto cfg genesis signers all s.hash s past ∧ Linked crypto at_ stop rest ∧
            (at_ = tip crypto (genesis.hash crypto.keccak) past ∨ past = []) := by
      cases same
      obtain ⟨past,replays⟩ := replays
      have ends := (replay_ends replays.applied).1
      exact ⟨faithful,held,past,number,hash,{ replays with hash := ends },linked,Or.inl replays.hash⟩
    split at walked
    · rename_i got
      exact stops (faithful_get faithful got) walked
    · split at walked
      · rename_i loaded
        exact stops (faithful_load faithful loaded) walked
      · rw [checkpoint_genesis honest] at walked
        by_cases zero : number = 0
        · simp only [zero,if_true,ground.signers] at walked
          split at walked
          · cases walked
            exact ⟨faithful_store faithful ⟨[],replays_genesis⟩,held,[],number,hash,replays_genesis,linked,Or.inr rfl⟩
          · cases walked
        · simp only [zero,if_false] at walked
          cases stepped : step crypto call.chain number hash parents with
          | none => simp [stepped] at walked
          | some next =>
            obtain ⟨header,parents'⟩ := next
            simp only [stepped] at walked
            obtain ⟨member,hashes,numbers,within'⟩ := step_found honest within stepped
            have before : sub64 number 1 = number - 1 := by unfold sub64; omega
            refine ih _ (by rw [before]; omega) within' ?_ ?_ walked
            · intro h either
              rcases mem_cons.mp either with rfl | earlier
              · exact member
              · exact held h earlier
            · rw [before]
              refine ⟨rfl,by omega,?_⟩
              rw [hashes,Nat.sub_add_cancel (Nat.pos_of_ne_zero zero)]
              exact linked

theorem linked_length (linked : Linked crypto parent 0 past) : past.length < 2^64 := by
  rcases eq_nil_or_concat' past with rfl | ⟨rest,last,rfl⟩
  · norm_num
  · have number := (linked_snoc.mp linked).2.2
    have small := last.numberU64_lt
    rw [length_append,length_singleton]
    omega
/-- Replayed on top of a replay, the headers of a walk make a longer replay. -/
theorem replays_append {at_ : Hash} {stop : Nat}
    (replays : Replays crypto cfg genesis signers all s.hash s past) (within : ∀ header ∈ rest, header ∈ all)
    (linked : Linked crypto at_ stop rest) (ends : at_ = tip crypto (genesis.hash crypto.keccak) past ∨ past = [])
    (applied : s.apply crypto cfg rest = .ok t) : Replays crypto cfg genesis signers all t.hash t (past ++ rest) := by
  have whole := apply_append.mpr ⟨s,replays.applied,applied⟩
  refine ⟨?_,?_,(replay_ends whole).1,whole⟩
  · intro header either
    rcases mem_append.mp either with member | member
    · exact replays.within header member
    · exact within header member
  · obtain ⟨parent,before⟩ := replays.linked
    cases rest with
    | nil => exact ⟨parent,by rw [append_nil]; exact before⟩
    | cons header rest =>
      -- the numbers say that the headers begin right after the snapshot
      have next := (Snapshot.apply_cons.mp applied).2.1
      have small := linked_length before
      rw [(replay_ends replays.applied).2,linked.2.1] at next
      obtain rfl : stop = past.length := by omega
      by_cases empty : past = []
      · subst empty
        exact ⟨at_,linked⟩
      · refine ⟨parent,linked_append.mpr ⟨before,?_⟩⟩
        rw [tip_other empty parent (genesis.hash crypto.keccak),← ends.resolve_right empty,Nat.zero_add]
        exact linked
/-- A call leaves replays only. -/
theorem faithful_snapshot (ground : Ground crypto genesis signers all)
    (honest : Honest crypto genesis all call) (faithful : Faithful crypto cfg genesis signers all e) :
    Faithful crypto cfg genesis signers all (e.snapshot crypto cfg call).1 := by
  unfold snapshot
  cases walked : walk crypto cfg call e (call.number + 1) call.number call.hash call.parents [] with
  | error err => exact faithful
  | ok found =>
    obtain ⟨e',s,rest⟩ := found
    obtain ⟨kept,within,past,stop,at_,replays,linked,ends⟩ :=
      walk_found ground honest faithful [] honest.number honest.parents (fun _ member => by cases member) trivial walked
    simp only
    cases applied : s.apply crypto cfg rest with
    | error err => exact kept
    | ok t =>
      have longer : ∃ past, Replays crypto cfg genesis signers all t.hash t past :=
        ⟨past ++ rest,replays_append replays within linked ends applied⟩
      have added := faithful_add kept call.keep longer
      simp only
      split
      · split
        · exact faithful_store added longer
        · exact added
      · exact added
theorem faithful_run (ground : Ground crypto genesis signers all) (calls : List Call)
    (honest : ∀ call ∈ calls, Honest crypto genesis all call) :
    Faithful crypto cfg genesis signers all (Engine.run crypto cfg calls) := by
  suffices later : ∀ e, Faithful crypto cfg genesis signers all e →
      Faithful crypto cfg genesis signers all (calls.foldl (fun e call => (e.snapshot crypto cfg call).1) e) from
    later _ faithful_new
  induction calls with
  | nil => exact fun _ faithful => faithful
  | cons call calls ih =>
    intro e faithful
    exact ih (fun c member => honest c (mem_cons_of_mem call member)) _
      (faithful_snapshot ground (honest call (by simp)) faithful)

/-- The call is for the last of the headers, which it is given or finds in the chain. -/
structure Served (crypto : Crypto) (genesis : Header) (all : Set Header) (call : Call) (headers : List Header) : Prop where
  within : ∀ header ∈ headers, header ∈ all
  linked : Linked crypto (genesis.hash crypto.keccak) 0 headers
  number : call.number = headers.length
  hash : call.hash = tip crypto (genesis.hash crypto.keccak) headers
  headers : ∃ known, headers = known ++ call.parents ∧
    ∀ header ∈ known, call.chain.getHeader (header.hash crypto.keccak) header.numberU64 = some header
  puts : call.checkpointPut = true ∧ call.snapshotPut = true

/-- The walk gets to the last header of the past, and goes on before it. -/
theorem step_served {init : List Header} {last : Header}
    (linked : Linked crypto (genesis.hash crypto.keccak) 0 (init ++ [last])) (split : init ++ [last] = known ++ parents)
    (finds : ∀ header ∈ known, call.chain.getHeader (header.hash crypto.keccak) header.numberU64 = some header) :
    ∃ known' parents', step crypto call.chain (init ++ [last]).length (tip crypto (genesis.hash crypto.keccak) (init ++ [last]))
        parents = some (last,parents') ∧ init = known' ++ parents' ∧ ∀ header ∈ known', header ∈ known := by
  obtain ⟨-,-,number⟩ := linked_snoc.mp linked
  have length : (init ++ [last]).length = last.numberU64 := by
    rw [number,length_append,length_singleton]
    omega
  rw [tip_snoc,length]
  rcases eq_nil_or_concat' parents with rfl | ⟨front,final,rfl⟩
  · rw [append_nil] at split
    subst split
    refine ⟨init,[],?_,by simp,fun h member => by simp [member]⟩
    simp [step,finds last (by simp)]
  · rw [← append_assoc] at split
    obtain ⟨rfl,same⟩ := append_inj' split rfl
    obtain rfl : last = final := by simpa using same
    exact ⟨known,front,by simp [step],rfl,fun _ member => member⟩
/-- A walk over headers that are given or found stops at the replay of some of them. -/
theorem walk_served (ground : Ground crypto genesis signers all)
    (honest : Honest crypto genesis all call) (faithful : Faithful crypto cfg genesis signers all e)
    (puts : call.checkpointPut = true) (headers : List Header)
    (within : ∀ header ∈ past, header ∈ all) (linked : Linked crypto (genesis.hash crypto.keccak) 0 past)
    (split : past = known ++ parents)
    (finds : ∀ header ∈ known, call.chain.getHeader (header.hash crypto.keccak) header.numberU64 = some header)
    (enough : past.length < fuel) :
    ∃ e' s base rest, walk crypto cfg call e fuel past.length (tip crypto (genesis.hash crypto.keccak) past) parents headers =
        .ok (e',s,rest ++ headers) ∧ past = base ++ rest ∧
      (newSnapshot 0 (genesis.hash crypto.keccak) signers).apply crypto cfg base = .ok s := by
  induction fuel generalizing past known parents headers with
  | zero => omega
  | succ fuel ih =>
    have stops {t : Snapshot} (replays : ∃ past', Replays crypto cfg genesis signers all
        (tip crypto (genesis.hash crypto.keccak) past) t past') :
        (newSnapshot 0 (genesis.hash crypto.keccak) signers).apply crypto cfg past = .ok t := by
      obtain ⟨past',replays⟩ := replays
      obtain ⟨parent,linked'⟩ := replays.linked
      rw [linked_unique ground within replays.within linked linked' replays.hash]
      exact replays.applied
    unfold walk
    cases got : e.get (tip crypto (genesis.hash crypto.keccak) past) with
    | some s => exact ⟨e,s,past,[],rfl,by simp,stops (faithful_get faithful got)⟩
    | none =>
      cases loaded : e.load past.length (tip crypto (genesis.hash crypto.keccak) past) with
      | some s => exact ⟨e,s,past,[],rfl,by simp,stops (faithful_load faithful loaded)⟩
      | none =>
        simp only [checkpoint_genesis honest]
        rcases eq_nil_or_concat' past with rfl | ⟨init,last,rfl⟩
        · simp only [length_nil,if_true,ground.signers,puts]
          exact ⟨_,_,[],[],rfl,rfl,rfl⟩
        · obtain ⟨known',parents',stepped,split',fewer⟩ := step_served linked split finds
          obtain ⟨before,parent,-⟩ := linked_snoc.mp linked
          have small := linked_length linked
          have back : sub64 (init ++ [last]).length 1 = init.length := by
            rw [length_append,length_singleton] at small ⊢
            unfold sub64
            omega
          obtain ⟨e',s,base,rest,walked,parts,applied⟩ := ih (last :: headers)
            (fun h member => within h (by simp [member])) before split' (fun h member => finds h (fewer h member))
            (by simpa using enough)
          refine ⟨e',s,base,rest ++ [last],?_,by rw [parts,append_assoc],applied⟩
          simp only [stepped,back,parent,walked,append_assoc,singleton_append]
          simp

/-- The snapshot of a call is the replay since genesis. -/
theorem snapshot_served (ground : Ground crypto genesis signers all)
    (honest : Honest crypto genesis all call) (faithful : Faithful crypto cfg genesis signers all e)
    (served : Served crypto genesis all call headers) (s : Snapshot) : (e.snapshot crypto cfg call).2 = .ok s ↔
      (newSnapshot 0 (genesis.hash crypto.keccak) signers).apply crypto cfg headers = .ok s := by
  obtain ⟨known,split,finds⟩ := served.headers
  obtain ⟨e',t,base,rest,walked,parts,applied⟩ := walk_served ground honest faithful served.puts.1 [] served.within
    served.linked split finds (Nat.lt_succ_self _)
  rw [← served.number,← served.hash,append_nil] at walked
  simp only [snapshot,walked]
  rw [parts,apply_append]
  have start : (∃ u, (newSnapshot 0 (genesis.hash crypto.keccak) signers).apply crypto cfg base = .ok u ∧
      u.apply crypto cfg rest = .ok s) ↔ t.apply crypto cfg rest = .ok s := by
    rw [applied]
    simp
  rw [start]
  cases replayed : t.apply crypto cfg rest with
  | error err => simp
  | ok u =>
    simp only [served.puts.2,if_true]
    split <;> simp
end

/-- Replays compose: two lists of headers are applied together exactly if they are applied one
    after the other, with the same snapshot. In memory `apply` does the same, and every snapshot
    that was there is shown as before. So after any calls, the engine's snapshot of a block whose
    headers are given or found is the replay of all of them since genesis. -/
theorem replay_composes (crypto : Crypto) (cfg : CliqueConfig) :
    (∀ (s t : Snapshot) (first second : List Header), s.apply crypto cfg (first ++ second) = .ok t ↔
      ∃ u, s.apply crypto cfg first = .ok u ∧ u.apply crypto cfg second = .ok t) ∧
    (∀ (m : Heap) (p : Nat) (s : Snapshot) (spare : Nat → Nat) (headers : List Header), m.Shows p s →
      Follows m (m.apply crypto cfg spare p headers) (s.apply crypto cfg headers) Heap.Shows ∧
      ∀ q u, m.Shows q u → (m.apply crypto cfg spare p headers).1.Shows q u) ∧
    (∀ (genesis : Header) (signers : List Address) (all : Set Header), Ground crypto genesis signers all →
      ∀ calls : List Call, (∀ call ∈ calls, Honest crypto genesis all call) →
      ∀ (call : Call) (headers : List Header), Honest crypto genesis all call → Served crypto genesis all call headers →
      ∀ s, ((Engine.run crypto cfg calls).snapshot crypto cfg call).2 = .ok s ↔
        (newSnapshot 0 (genesis.hash crypto.keccak) signers).apply crypto cfg headers = .ok s) := by
  refine ⟨fun _ _ _ _ => apply_append,?_,?_⟩
  · intro m p s spare headers shows_
    have follows := apply_on_heap shows_ crypto cfg spare headers
    exact ⟨follows,fun q u other => follows.keeps.shows other⟩
  · intro genesis signers all ground calls honest call headers honest' served s
    exact snapshot_served ground honest' (faithful_run ground calls honest) served s

def genesisHeader : Header :=
  sampleHeader .zero 0 .zero (vanity ++ (bob.bytes ++ alice.bytes ++ List.replicate 65 0)) .zero
def secondHash : Hash := bytesToHash (Secp256k1.bytesOf 32 0x7a4a942463566dad457bbc3ff02c298206271ffdd54ecaaac2dd3edc67fd093f)
/-- The headers of the chain with their hashes. -/
def sampleHeaders : List (Hash × Header) := [(genesisHash,genesisHeader),(firstHash,first),(secondHash,second)]
theorem sampleHeaders_hash : ∀ r ∈ sampleHeaders, r.2.hash crypto.keccak = r.1 := by
  rw [crypto,Keccak.keccak_packed]
  decide +kernel
theorem genesis_hash : genesisHeader.hash crypto.keccak = genesisHash := sampleHeaders_hash (genesisHash,genesisHeader) (by simp [sampleHeaders])
theorem first_hash : first.hash crypto.keccak = firstHash := sampleHeaders_hash (firstHash,first) (by simp [sampleHeaders])
theorem second_hash : second.hash crypto.keccak = secondHash := sampleHeaders_hash (secondHash,second) (by simp [sampleHeaders])
def sampleChain : ChainReader where
  getHeader hash number := (sampleHeaders.find? fun r => r.1 = hash ∧ r.2.numberU64 = number).map (·.2)
  getHeaderByNumber number := (sampleHeaders[number]?).map (·.2)
def sampleCall (number : Nat) (hash : Hash) : Call := ⟨sampleChain,number,hash,[],fun _ => true,true,true⟩
def allHeaders : Set Header := fun header => ∃ r ∈ sampleHeaders, r.2 = header

theorem sample_ground : Ground crypto genesisHeader [bob,alice] allHeaders := by
  refine ⟨⟨_,mem_cons_self,rfl⟩,rfl,by decide +kernel,?_⟩
  rintro a ⟨r,member,rfl⟩ b ⟨r',member',rfl⟩ same
  rw [sampleHeaders_hash r member,sampleHeaders_hash r' member'] at same
  have distinct : (sampleHeaders.map (·.1)).Nodup := by decide +kernel
  rw [inj_on_of_nodup_map distinct member member' same]
theorem sample_honest (small : number < 2^64) (hash : Hash) :
    Honest crypto genesisHeader allHeaders (sampleCall number hash) := by
  refine ⟨small,?_,(fun _ member => by cases member),rfl,?_⟩
  · intro hash' number' header got
    obtain ⟨r,found,rfl⟩ := map_eq_some_iff.mp got
    have member := mem_of_find?_eq_some found
    have same : r.1 = hash' ∧ r.2.numberU64 = number' := by simpa using find?_some found
    exact ⟨⟨r,member,rfl⟩,(sampleHeaders_hash r member).trans same.1,same.2⟩
  · intro number' none
    have beyond : sampleHeaders[number']? = .none := map_eq_none_iff.mp none
    rw [getElem?_eq_none_iff] at beyond
    exact map_eq_none_iff.mpr (getElem?_eq_none_iff.mpr (Nat.le_succ_of_le beyond))
theorem sample_served : Served crypto genesisHeader allHeaders (sampleCall 2 secondHash) [first,second] := by
  refine ⟨?_,⟨genesis_hash.symm,rfl,first_hash.symm,rfl,trivial⟩,rfl,second_hash.symm,⟨[first,second],rfl,?_⟩,rfl,rfl⟩
  · intro header member
    rcases mem_cons.mp member with rfl | member
    · exact ⟨(firstHash,first),by simp [sampleHeaders],rfl⟩
    · obtain rfl := mem_singleton.mp member
      exact ⟨(secondHash,second),by simp [sampleHeaders],rfl⟩
  · intro header member
    rcases mem_cons.mp member with rfl | member
    · rw [first_hash]
      rfl
    · obtain rfl := mem_singleton.mp member
      rw [second_hash]
      rfl

/-- One snapshot in memory, that of the genesis block. -/
def sampleHeap : Heap :=
  ⟨[⟨0,genesisHash,0,0,.nil,0⟩],[genesisSnapshot.signers],[[]],[fun _ => none],[]⟩
theorem sampleHeap_shows : sampleHeap.Shows 0 genesisSnapshot :=
  ⟨_,rfl,rfl,rfl,rfl,rfl,rfl,Slices.nil_valid,rfl⟩
/-- The second snapshot, with the first in the cache and from genesis; and the first in memory,
    next to that of the genesis block. -/
theorem replay_composes_second :
    (sampleHeap.apply crypto sampleConfig (fun n => n) 0 [first]).1.Shows 0 genesisSnapshot ∧
    (∃ q, (sampleHeap.apply crypto sampleConfig (fun n => n) 0 [first]).2 = .ok q ∧
      (sampleHeap.apply crypto sampleConfig (fun n => n) 0 [first]).1.Shows q firstSnapshot) ∧
    ((Engine.run crypto sampleConfig [sampleCall 1 firstHash]).snapshot crypto sampleConfig (sampleCall 2 secondHash)).2 =
      .ok secondSnapshot ∧
    (Engine.new.snapshot crypto sampleConfig (sampleCall 2 secondHash)).2 = .ok secondSnapshot := by
  obtain ⟨joins,memory,calls⟩ := replay_composes crypto sampleConfig
  have two : firstSnapshot.apply crypto sampleConfig [second] = .ok secondSnapshot :=
    (Snapshot.apply_one _ _).trans second_advances
  have both : (newSnapshot 0 (genesisHeader.hash crypto.keccak) [bob,alice]).apply crypto sampleConfig [first,second] =
      .ok secondSnapshot := by
    rw [genesis_hash]
    exact (joins genesisSnapshot secondSnapshot [first] [second]).mpr ⟨_,first_reached,two⟩
  obtain ⟨follows,untouched⟩ := memory sampleHeap 0 genesisSnapshot (fun n => n) [first] sampleHeap_shows
  have honest := sample_honest (show 2 < 2^64 by norm_num) secondHash
  refine ⟨untouched 0 _ sampleHeap_shows,follows.reached _ first_reached,?_,?_⟩
  · refine (calls genesisHeader [bob,alice] allHeaders sample_ground [sampleCall 1 firstHash] ?_ _ _ honest sample_served _).mpr both
    intro call member
    obtain rfl := mem_singleton.mp member
    exact sample_honest (by norm_num) firstHash
  · exact (calls genesisHeader [bob,alice] allHeaders sample_ground [] nofun _ _ honest sample_served _).mpr both

end Canchain.Clique
