import Canchain.RlpTypes

/-!
Nested item trees. A finite tree of byte strings and lists is encoded through the
buffer to one sequence of bytes, and `DecodeBytes` into an empty interface accepts
exactly these sequences. None begins another one (`encodings_separate`).
-/
namespace Canchain.Rlp
set_option linter.unusedSectionVars false

inductive Tree where
  | string (b : Bytes)
  | list (ts : List Tree)

mutual
/-- A tree as a Go value: `[]byte` or `[]interface{}`. -/
def Tree.val : Tree → Val
  | .string b => .bytes b
  | .list ts => .list (Tree.vals ts)
def Tree.vals : List Tree → List Val
  | [] => []
  | t :: ts => t.val :: Tree.vals ts
end
mutual
/-- The encoding of a tree, by its definition. -/
def Tree.encode : Tree → Bytes
  | .string b => encodeString b
  | .list ts => encodeList (Tree.encodes ts)
def Tree.encodes : List Tree → Bytes
  | [] => []
  | t :: ts => t.encode ++ Tree.encodes ts
end
mutual
/-- The calls and rounds that decoding a tree takes. -/
def Tree.cost : Tree → Nat
  | .string _ => 1
  | .list ts => 1 + Tree.costs ts
def Tree.costs : List Tree → Nat
  | [] => 1
  | t :: ts => 1 + t.cost + Tree.costs ts
end
mutual
/-- The sizes of all lists are words of 64 bits. -/
def Tree.Sized : Tree → Prop
  | .string b => Fits b
  | .list ts => Fits (Tree.encodes ts) ∧ Tree.AllSized ts
def Tree.AllSized : List Tree → Prop
  | [] => True
  | t :: ts => t.Sized ∧ Tree.AllSized ts
end

theorem Tree.encode_ne_nil (t : Tree) : t.encode ≠ [] := by
  cases t with
  | string b => exact encodeString_ne_nil b
  | list ts => exact encodeList_ne_nil _
theorem Tree.vals_nil {ts : List Tree} (empty : Tree.encodes ts = []) : Tree.vals ts = [] := by
  cases ts with
  | nil => rfl
  | cons t ts => exact absurd (List.append_eq_nil_iff.mp empty).1 t.encode_ne_nil
mutual
theorem Tree.sized_of_fits : (t : Tree) → Fits t.encode → t.Sized
  | .string _, fits => fits_string fits
  | .list ts, fits =>
    have payload : Fits (Tree.encodes ts) := fits_payload fits
    ⟨payload,Tree.allSized_of_fits ts payload⟩
theorem Tree.allSized_of_fits : (ts : List Tree) → Fits (Tree.encodes ts) → Tree.AllSized ts
  | [], _ => trivial
  | t :: ts, fits => by
    simp only [Fits,Tree.encodes,List.length_append] at fits
    exact ⟨t.sized_of_fits (by simp only [Fits]; omega),Tree.allSized_of_fits ts (by simp only [Fits]; omega)⟩
end
variable {t : Tree} {rest : Bytes} {stack : List ListPos} {vs : List Val} {s' : Stream}

section
variable {τ : Type} {types : τ → Shape τ} {typ : τ} (any : types typ = .iface)
include any

mutual
theorem write_tree (fuel : Nat) : (t : Tree) → t.Sized → (tags : Tags) → (w : Encbuf) →
    ∃ w', write types fuel t.val typ tags w = .ok w' ∧ Writes w w' t.encode
  | .string b, _, _, w => ⟨w.encodeString b,by simp [Tree.val,write,any],writes_write w _⟩
  | .list ts, sized, _, w => by
    obtain ⟨w',written,writes⟩ := write_trees fuel ts sized.2 w.list.2
    exact ⟨w'.listEnd w.list.1,by simp [Tree.val,write,any,written,Except.map],writes_list writes sized.1⟩
theorem write_trees (fuel : Nat) : (ts : List Tree) → Tree.AllSized ts → (w : Encbuf) →
    ∃ w', writeAll types fuel (Tree.vals ts) typ w = .ok w' ∧ Writes w w' (Tree.encodes ts)
  | [], _, w => ⟨w,rfl,writes_nil w⟩
  | t :: ts, sized, w => by
    obtain ⟨w₁,written₁,writes₁⟩ := write_tree fuel t sized.1 .none w
    obtain ⟨w₂,written₂,writes₂⟩ := write_trees fuel ts sized.2 w₁
    exact ⟨w₂,by simp [Tree.vals,writeAll,written₁,written₂,Except.bind],writes₁.trans writes₂⟩
end
theorem encodeToBytes_tree (fuel : Nat) (sized : t.Sized) : encodeToBytes types fuel typ t.val = .ok t.encode := by
  obtain ⟨w,written,writes⟩ := write_tree any fuel t sized .none .empty
  simp [encodeToBytes,written,Except.map,writes.toBytes]

variable {fuel : Nat} {tags : Tags} {s : Stream} {b : Bytes}
theorem decode_string
    (here : AtString s b rest stack) : ∃ s', decode types (fuel+1) typ tags s = (.ok (.bytes b),s') ∧ Ready s' rest stack := by
  have found : ∃ k n s₁, k ≠ .List ∧ s.kind = (.ok (k,n),s₁) := by
    rcases here with ⟨x,s₁,-,-,found,-⟩ | ⟨s₁,-,-,found,-⟩
    · exact ⟨_,_,s₁,by simp,found⟩
    · exact ⟨_,_,s₁,by simp,found⟩
  obtain ⟨k,n,s₁,notList,found⟩ := found
  obtain ⟨s',read,ready⟩ := bytes_ok (here.look found)
  exact ⟨s',by simp [decode,any,decodeInterface,found,if_neg notList,read],ready⟩

theorem decode_list {payload : Bytes}
    (reads : ReadsAll (decodeSliceElems (decode types fuel typ .none) fuel 0) payload vs) (empty : payload = [] → vs = [])
    (here : AtList s payload rest stack) :
    ∃ s', decode types (fuel+1) typ tags s = (.ok (.list vs),s') ∧ Ready s' rest (bump payload.length stack) := by
  obtain ⟨s₁,found,-⟩ := id here
  obtain ⟨s',read,ready⟩ := listSlice_ok typ reads empty (here.look found)
  exact ⟨s',by simp [decode,any,decodeInterface,found,read],ready⟩
theorem ends_iface (fuel : Nat) (tags : Tags) : Ends (decode types (fuel+1) typ tags) := by
  intro s b tos below ready full
  exact ⟨s.noError,by simp [decode,any,decodeInterface,kind_end ready full],ready.noError⟩

mutual
theorem reads_tree : (t : Tree) → t.Sized → (fuel : Nat) → t.cost ≤ fuel → (tags : Tags) →
    Reads (decode types fuel typ tags) t.encode t.val
  | .string b, sized, fuel, enough, tags, s, rest, stack, ready, room => by
    obtain ⟨fuel,rfl⟩ := Nat.exists_eq_add_of_le' (show 1 ≤ fuel from enough)
    exact decode_string any (at_string ready room sized)
  | .list ts, sized, fuel, enough, tags, s, rest, stack, ready, room => by
    simp only [Tree.cost] at enough
    obtain ⟨fuel,rfl⟩ := Nat.exists_eq_add_of_le' (show 1 ≤ fuel by omega)
    have reads := reads_trees ts sized.2 fuel fuel (by omega) (by omega) 0
    obtain ⟨s',read,ready'⟩ := decode_list any reads Tree.vals_nil (at_list ready room sized.1)
    refine ⟨s',read,?_⟩
    rw [bump_bump,← List.length_append] at ready'
    exact ready'
theorem reads_trees : (ts : List Tree) → Tree.AllSized ts → (fuel rounds : Nat) → Tree.costs ts ≤ fuel →
    Tree.costs ts ≤ rounds → (i : Nat) →
    ReadsAll (decodeSliceElems (decode types fuel typ .none) rounds i) (Tree.encodes ts) (Tree.vals ts)
  | [], _, fuel, rounds, enough, enough', i => by
    obtain ⟨fuel,rfl⟩ := Nat.exists_eq_add_of_le' (show 1 ≤ fuel from enough)
    obtain ⟨rounds,rfl⟩ := Nat.exists_eq_add_of_le' (show 1 ≤ rounds from enough')
    exact sliceElems_nil (ends_iface any fuel .none) rounds i
  | t :: ts, sized, fuel, rounds, enough, enough', i => by
    simp only [Tree.costs] at enough enough'
    obtain ⟨rounds,rfl⟩ := Nat.exists_eq_add_of_le' (show 1 ≤ rounds by omega)
    exact next_cons (reads_tree t sized.1 fuel (by omega) .none)
      (reads_trees ts sized.2 fuel rounds (by omega) (by omega) (i+1))
end

/-! ### What is accepted -/

theorem decode_EOL (ended : decode types fuel typ tags s = (.error (.stream .EOL),s')) :
    s.kind = (.error .EOL,s') := by
  cases fuel with
  | zero => simp [decode] at ended
  | succ fuel =>
    simp only [decode,any] at ended
    exact interface_end ended

/-- What the decoder accepts in front of a stream is the encoding of a tree. -/
def Accepts (dec : Decoder τ Val) : Prop :=
  ∀ (s s' : Stream) (b : Bytes) (stack : List ListPos) (v : Val), Ready s b stack → dec s = (.ok v,s') →
    ∃ t rest, v = Tree.val t ∧ b = t.encode ++ rest ∧ t.Sized ∧ Room t.encode.length stack ∧
      Ready s' rest (bump t.encode.length stack)

theorem sliceElems_accepts (accepts : Accepts (decode types fuel typ .none)) {rounds i : Nat}
    {pos size : Nat} {below : List ListPos} (ready : Ready s b (⟨pos,size⟩ :: below))
    (read : decodeSliceElems (decode types fuel typ .none) rounds i s = (.ok vs,s')) :
    ∃ ts rest, vs = Tree.vals ts ∧ b = Tree.encodes ts ++ rest ∧ Tree.AllSized ts ∧ pos + (Tree.encodes ts).length = size ∧
      Ready s' rest (⟨size,size⟩ :: below) := by
  induction rounds generalizing i s b pos vs with
  | zero => simp [decodeSliceElems] at read
  | succ rounds ih =>
    rcases next_ok.mp read with ⟨ended,⟨⟩⟩ | ⟨v,vs,s₁,first,others,rfl⟩
    · obtain ⟨tos,below',same,full,rfl⟩ := kind_EOL ready (decode_EOL any ended)
      simp only [List.cons.injEq] at same
      obtain ⟨rfl,rfl⟩ := same
      simp only at full
      subst full
      exact ⟨[],b,rfl,rfl,trivial,rfl,ready.noError⟩
    · obtain ⟨t,rest,rfl,rfl,sized,room,ready₁⟩ := accepts s s₁ b _ v ready first
      have ready₁ : Ready s₁ rest (⟨pos + t.encode.length,size⟩ :: below) := ready₁
      obtain ⟨ts,rest',rfl,rfl,sizeds,total,ready₂⟩ := ih ready₁ others
      refine ⟨t :: ts,rest',rfl,by simp [Tree.encodes],⟨sized,sizeds⟩,?_,ready₂⟩
      simp only [Tree.encodes,List.length_append]
      omega
theorem decode_accepts (fuel : Nat) (tags : Tags) : Accepts (decode types fuel typ tags) := by
  induction fuel generalizing tags with
  | zero =>
    intro s s' b stack v ready read
    simp [decode] at read
  | succ fuel ih =>
    intro s s' b stack v ready read
    simp only [decode,any,decodeInterface] at read
    split at read
    · simp at read
    rename_i k n s₁ found
    split at read
    · simp only [decodeListSlice,list_look found] at read
      split at read
      · simp at read
      · rename_i size s₂ entered
        obtain ⟨rest,rfl,small,room,ready₂⟩ := list_inv ready entered
        have elements : ∃ ts rest' s₃, rest = Tree.encodes ts ++ rest' ∧ Tree.AllSized ts ∧ (Tree.encodes ts).length = size ∧
            Ready s₃ rest' (⟨size,size⟩ :: bump (headOf .List size).length stack) ∧
            listEndWith (DecodeError.stream (τ := τ)) (.list (Tree.vals ts)) s₃ = (.ok v,s') := by
          split at read
          · rename_i none
            subst none
            exact ⟨[],rest,s₂,rfl,trivial,rfl,ready₂,read⟩
          · split at read
            · simp at read
            · rename_i vs s₃ elems
              obtain ⟨ts,rest',rfl,rfl,sized,total,ready₃⟩ := sliceElems_accepts any (ih .none) ready₂ elems
              exact ⟨ts,rest',s₃,rfl,sized,by omega,ready₃,read⟩
        obtain ⟨ts,rest',s₃,rfl,sized,rfl,ready₃,closed⟩ := elements
        obtain ⟨rfl,ended⟩ := listEndWith_inv closed
        have ready' := listEnd_inv ready₃.toStands room.bump ended
        refine ⟨.list ts,rest',rfl,by simp [Tree.encode,encodeList_head],⟨small,sized⟩,?_,?_⟩
        · simpa [Tree.encode,encodeList_head] using room
        · simpa [Tree.encode,encodeList_head] using ready'
    · rw [bytes_look found] at read
      split at read
      · simp at read
      · rename_i content s₂ string
        simp only [Prod.mk.injEq,Except.ok.injEq] at read
        obtain ⟨rfl,rfl⟩ := read
        obtain ⟨rest,rfl,fits,room,ready'⟩ := bytes_inv ready string
        exact ⟨.string content,rest,rfl,rfl,fits,room,ready'⟩

/-- A tree is read back from its encoding, and what is read as a tree is its encoding. -/
theorem decodeBytes_tree (sized : t.Sized) (enough : t.cost ≤ fuel) :
    decodeBytes types fuel typ t.encode = .ok t.val := by
  obtain ⟨s',read,ready⟩ := reads_tree any t sized fuel enough .none (newStream t.encode) [] []
    (by simpa using newStream_ready t.encode) trivial
  simp [decodeBytes,streamDecode,read,ready.input]
theorem decodeBytes_inv {v : Val} (read : decodeBytes types fuel typ b = .ok v) :
    ∃ t, v = Tree.val t ∧ t.Sized ∧ b = t.encode := by
  obtain ⟨s',decoded,consumed⟩ := decodeBytes_ok read
  obtain ⟨t,rest,rfl,rfl,sized,-,ready⟩ := decode_accepts any fuel .none _ _ _ _ _ (newStream_ready b) decoded
  rw [ready.input] at consumed
  subst consumed
  exact ⟨t,rfl,sized,by simp⟩

end

/-- RLP is a bijection of trees and the byte strings that `DecodeBytes` accepts for an empty interface. -/
theorem tree_encoding_bijective {τ : Type} (types : τ → Shape τ) (typ : τ) (any : types typ = .iface) :
    (∀ (fuel : Nat) (t : Tree), Fits t.encode →
      ∃ b, encodeToBytes types fuel typ t.val = .ok b ∧ ∀ rounds, t.cost ≤ rounds → decodeBytes types rounds typ b = .ok t.val) ∧
    (∀ (rounds : Nat) (b : Bytes) (v : Val), decodeBytes types rounds typ b = .ok v →
      (∃ t, v = Tree.val t) ∧ ∀ fuel, encodeToBytes types fuel typ v = .ok b) := by
  constructor
  · intro fuel t fits
    have sized := t.sized_of_fits fits
    exact ⟨t.encode,encodeToBytes_tree any fuel sized,fun rounds enough => decodeBytes_tree any sized enough⟩
  · intro rounds b v read
    obtain ⟨t,rfl,sized,rfl⟩ := decodeBytes_inv any read
    exact ⟨⟨t,rfl⟩,fun fuel => encodeToBytes_tree any fuel sized⟩

/-- The list of an empty string and a list of "dog". -/
theorem tree_encoding_bijective_sample :
    encodeToBytes (fun _ : Unit => .iface) 0 () (Tree.val (.list [.string [],.list [.string [0x64,0x6f,0x67]]])) =
      .ok [0xC6,0x80,0xC4,0x83,0x64,0x6f,0x67] ∧
    decodeBytes (fun _ : Unit => .iface) 9 () [0xC6,0x80,0xC4,0x83,0x64,0x6f,0x67] =
      .ok (Tree.val (.list [.string [],.list [.string [0x64,0x6f,0x67]]])) := by
  obtain ⟨b,written,read⟩ := (tree_encoding_bijective (fun _ : Unit => .iface) () rfl).1 0
    (.list [.string [],.list [.string [0x64,0x6f,0x67]]]) (by simp only [Fits]; decide)
  have same : b = [0xC6,0x80,0xC4,0x83,0x64,0x6f,0x67] := by
    have := written.symm.trans (show _ = Except.ok [0xC6,0x80,0xC4,0x83,0x64,0x6f,0x67] from rfl)
    simpa using this
  subst same
  exact ⟨written,read 9 (by decide)⟩

/-- No encoding is the beginning of another one: encodings in front of a stream are the same exactly if the values are. -/
theorem encodings_separate {τ : Type} (types : τ → Shape τ) (typ : τ) (any : types typ = .iface) (fuel : Nat) (t u : Tree)
    (fits : Fits t.encode) (fits' : Fits u.encode) : ∃ b b', encodeToBytes types fuel typ t.val = .ok b ∧
      encodeToBytes types fuel typ u.val = .ok b' ∧ ∀ rest rest', b ++ rest = b' ++ rest' ↔ t.val = u.val ∧ rest = rest' := by
  have sized := t.sized_of_fits fits
  have sized' := u.sized_of_fits fits'
  have wrote := encodeToBytes_tree any fuel sized
  have wrote' := encodeToBytes_tree any fuel sized'
  refine ⟨t.encode,u.encode,wrote,wrote',fun rest rest' => ⟨fun same => ?_,?_⟩⟩
  · obtain ⟨s,read,ready⟩ := reads_tree any t sized (t.cost + u.cost) (by omega) .none _ rest [] (newStream_ready _) trivial
    obtain ⟨s',read',ready'⟩ := reads_tree any u sized' (t.cost + u.cost) (by omega) .none _ rest' [] (newStream_ready _) trivial
    rw [same,read'] at read
    obtain ⟨value,rfl⟩ := Prod.mk.inj read
    exact ⟨(Except.ok.inj value).symm,ready.input.symm.trans ready'.input⟩
  · rintro ⟨value,rfl⟩
    rw [value,wrote'] at wrote
    rw [Except.ok.inj wrote]
/-- Two lists in lists, which differ in an inner one: neither encoding begins the other one. -/
theorem encodings_separate_nested : ∃ b b',
    encodeToBytes (fun _ : Unit => .iface) 0 () (Tree.val (.list [.list [.string [0x64]],.string []])) = .ok b ∧
    encodeToBytes (fun _ : Unit => .iface) 0 () (Tree.val (.list [.list [.string [0x64],.list []]])) = .ok b' ∧
    ∀ rest rest', b ++ rest ≠ b' ++ rest' := by
  obtain ⟨b,b',wrote,wrote',same⟩ := encodings_separate (fun _ : Unit => .iface) () rfl 0 (.list [.list [.string [0x64]],.string []])
    (.list [.list [.string [0x64],.list []]]) (by simp only [Fits]; decide) (by simp only [Fits]; decide)
  exact ⟨b,b',wrote,wrote',fun rest rest' eq => by simpa [Tree.val,Tree.vals] using ((same rest rest').mp eq).1⟩

end Canchain.Rlp
