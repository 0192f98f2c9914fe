import Kendylib.Container.RBtreeFixUp
import Mathlib.Data.Set.Card
import Mathlib.Data.Finset.Card

/-!
# Searching and inserting

The content of a tree is the list of its keys and values from left to right. With the keys in
strictly increasing order, `find` ends at the node of the key or at the last node before the leaf
where the key belongs (`find_spec`), and an insert of a new key puts it in its place in the list
(`RBtreeInsert_spec`).
-/

namespace Kendylib

/-- The comparison function is a strict total order, answering `-1`, `0` or `1`. -/
structure StrictOrder {K : Type} (compare : K → K → Int) : Prop where
  range : ∀ a b, compare a b = -1 ∨ compare a b = 0 ∨ compare a b = 1
  eq : ∀ a b, compare a b = 0 ↔ a = b
  flip : ∀ a b, compare a b = 1 ↔ compare b a = -1
  trans : ∀ a b c, compare a b = -1 → compare b c = -1 → compare a c = -1

namespace RBtree

open Tree

variable {K V : Type} {rb : RBtree K V} {ctx : List (Frame (Entry K V))}
  {t u w : Tree (Entry K V)} {x y : Entry K V} {s : Side} {c : Color} {n : ℕ} {key : K}
  {compare : K → K → Int}

/-- The keys and values of a list of nodes. -/
def data (xs : List (Entry K V)) : List (K × V) := xs.map fun x => (x.key, x.val)

@[simp] theorem data_nil : data ([] : List (Entry K V)) = [] := rfl

@[simp] theorem data_cons (xs : List (Entry K V)) : data (x :: xs) = (x.key, x.val) :: data xs := rfl

@[simp] theorem data_append (xs ys : List (Entry K V)) : data (xs ++ ys) = data xs ++ data ys :=
  List.map_append

/-- The keys are in strictly increasing order. -/
def Sorted (compare : K → K → Int) (xs : List (K × V)) : Prop :=
  xs.Pairwise fun a b => compare a.1 b.1 = -1

/-- The order is one of the keys. -/
theorem Sorted.keys_iff {xs ys : List (K × V)} (h : xs.map Prod.fst = ys.map Prod.fst) :
    Sorted compare xs ↔ Sorted compare ys := by
  rw [Sorted, Sorted, ← List.pairwise_map (f := Prod.fst) (R := fun a b => compare a b = -1), h,
    List.pairwise_map]

/-! ## Searching -/

/-- The key belongs in the place of the subtree in focus. -/
def Between (compare : K → K → Int) (key : K) (ctx : List (Frame (Entry K V))) : Prop :=
  (∀ x ∈ before ctx, compare x.key key = -1) ∧ ∀ x ∈ after ctx, compare key x.key = -1

theorem Sorted.focus (hs : Sorted compare (data (plug ctx (.node c t x u)).toList)) :
    (∀ y ∈ t.toList, compare y.key x.key = -1) ∧ ∀ y ∈ u.toList, compare x.key y.key = -1 := by
  rw [toList_plug, toList, data_append, data_append, data_append, data_cons] at hs
  obtain ⟨-, hs, -⟩ := List.pairwise_append.mp (List.pairwise_append.mp hs).1
  obtain ⟨-, hu, htx⟩ := List.pairwise_append.mp hs
  refine ⟨fun y hy => ?_, fun y hy => ?_⟩
  · exact htx (y.key, y.val) (List.mem_map_of_mem hy) (x.key, x.val) List.mem_cons_self
  · exact (List.pairwise_cons.mp hu).1 (y.key, y.val) (List.mem_map_of_mem hy)

/-- **The loop of `find`.** -/
theorem findLoop_spec (ho : StrictOrder compare) {fuel : ℕ} (h : Holds rb (plug ctx t))
    (hs : Sorted compare (data (plug ctx t).toList)) (hb : Between compare key ctx)
    (hfuel : t.toList.length < fuel) :
    ∃ ctx' t' a, findLoop compare rb key fuel (addr t) (parentAddr ctx) = .ok a ∧
      plug ctx' t' = plug ctx t ∧ Between compare key ctx' ∧
      (t' = .leaf ∧ a = parentAddr ctx' ∨
        ∃ c l x r, t' = .node c l x r ∧ x.key = key ∧ a = x.addr) := by
  induction fuel generalizing ctx t with
  | zero => omega
  | succ fuel ih =>
    cases t with
    | leaf => exact ⟨ctx, .leaf, parentAddr ctx, rfl, rfl, hb, .inl ⟨rfl, rfl⟩⟩
    | node c l x r =>
      have hx : Holds rb (plug ctx (join .left c l x r)) := h
      obtain ⟨hl, hr⟩ := hs.focus
      have hlen : l.toList.length < fuel ∧ r.toList.length < fuel := by
        simp only [toList, List.length_append, List.length_cons] at hfuel
        omega
      rw [addr, findLoop, if_neg hx.ne_nil, hx.get_join]
      simp only [Exec.ok_bind, cell_key]
      rcases ho.range key x.key with hlt | heq | hgt
      · -- to the left
        rw [hlt, if_neg (by decide), if_pos rfl]
        have h' : Holds rb (plug (⟨.left, c, x, r⟩ :: ctx) l) := h
        refine ih h' hs ⟨hb.1, fun y hy => ?_⟩ hlen.1
        simp only [after, List.cons_append, List.mem_cons, List.mem_append] at hy
        rcases hy with rfl | hy | hy
        · exact hlt
        · exact ho.trans _ _ _ hlt (hr y hy)
        · exact hb.2 y hy
      · rw [heq, if_pos rfl]
        exact ⟨ctx, _, x.addr, rfl, rfl, hb, .inr ⟨c, l, x, r, rfl, ((ho.eq _ _).mp heq).symm, rfl⟩⟩
      · rw [hgt, if_neg (by decide), if_neg (by decide)]
        have h' : Holds rb (plug (⟨.right, c, x, l⟩ :: ctx) r) := h
        refine ih h' hs ⟨fun y hy => ?_, hb.2⟩ hlen.2
        have hxk := (ho.flip _ _).mp hgt
        simp only [before, List.append_assoc, List.mem_append, List.mem_singleton] at hy
        rcases hy with hy | hy | rfl
        · exact hb.1 y hy
        · exact ho.trans _ _ _ (hl y hy) hxk
        · exact hxk

/-- **`find`** ends at the node of the key, or at the parent of the leaf where it belongs. -/
theorem find_spec (ho : StrictOrder compare) (h : Holds rb t)
    (hs : Sorted compare (data t.toList)) (key : K) :
    ∃ ctx t' a, rb.find compare key = .ok a ∧ plug ctx t' = t ∧ Between compare key ctx ∧
      (t' = .leaf ∧ a = parentAddr ctx ∨
        ∃ c l x r, t' = .node c l x r ∧ x.key = key ∧ a = x.addr) := by
  have hnil : Between compare key ([] : List (Frame (Entry K V))) := by
    simp [Between, before, after]
  by_cases hroot : rb.root = nil
  · obtain rfl := h.rep.addr_eq_nil.mp (h.root ▸ hroot)
    exact ⟨[], .leaf, nil, by rw [find, if_pos hroot], rfl, hnil, .inl ⟨rfl, rfl⟩⟩
  · have h' : Holds rb (plug [] t) := h
    have hsize := h.size
    rw [find, if_neg hroot, h.root]
    exact findLoop_spec ho h' hs hnil (by omega)

/-! ## Inserting -/

/-- The side of a new node is the one the comparison with its parent tells. -/
theorem Between.side (ho : StrictOrder compare) {f : Frame (Entry K V)}
    (hb : Between compare key (f :: ctx)) : compare key f.elt.key = -1 ↔ f.side = .left := by
  obtain ⟨s, c, x, u⟩ := f
  cases s with
  | left => simpa using hb.2 x (by simp [after])
  | right =>
    have := (ho.flip _ _).mpr (hb.1 x (by simp [before]))
    simp [this]

/-- **Linking a new node** in the place of a leaf. -/
theorem linkNode_spec (ho : StrictOrder compare) (h : Holds rb (plug ctx .leaf))
    (hb : Between compare key ctx) (val : V) :
    ∃ rb', rb.linkNode compare (parentAddr ctx) key val = .ok (rb', rb.fresh) ∧
      Holds rb' (plug ctx (join .left .red .leaf ⟨rb.fresh, key, val⟩ .leaf)) ∧
      rb'.size = rb.size + 1 ∧
      ∀ a ∉ addrs (plug ctx (join .left .red .leaf ⟨rb.fresh, key, val⟩ .leaf)),
        rb'.node a = rb.node a := by
  set x : Entry K V := ⟨rb.fresh, key, val⟩ with hx
  set rb₁ : RBtree K V := { rb.put rb.fresh (cell .left (parentAddr ctx) nil nil .red x) with
    fresh := rb.fresh + 1 } with hrb₁
  have hfresh : ∀ a ∈ ctxAddrs ctx, a < rb.fresh := fun a ha =>
    h.fresh.2 a ((Holds.mem_plug ..).mpr (.inr ha))
  have hne₁ : ∀ a, a ≠ rb.fresh → rb₁.node a = rb.node a := fun a ha => put_node_of_ne ha ..
  have hself₁ : rb₁.node rb.fresh = some (cell .left (parentAddr ctx) nil nil .red x) :=
    put_node_self ..
  have hctx₁ : RepCtx rb₁.node ctx nil :=
    h.repCtx.congr fun a ha => hne₁ a (hfresh a ha).ne
  have hxn : rb.fresh ≠ nil := h.fresh.1.ne'
  -- the link to the new node
  obtain ⟨rb₂, hlink, hctx₂, hroot₂, hne₂, hsize₂, hfresh₂⟩ : ∃ rb₂, (do
        if parentAddr ctx = nil then return { rb₁ with root := rb.fresh }
        else if compare key (← rb₁.get (parentAddr ctx)).key = -1 then
          rb₁.setChild .left (parentAddr ctx) rb.fresh
        else rb₁.setChild .right (parentAddr ctx) rb.fresh : Exec (RBtree K V)) = .ok rb₂ ∧
      RepCtx rb₂.node ctx rb.fresh ∧ rb₂.root = rootAddr ctx rb.fresh ∧
      (∀ a, a ∉ ctxAddrs ctx → rb₂.node a = rb₁.node a) ∧ rb₂.size = rb.size ∧
      rb₂.fresh = rb.fresh + 1 := by
    cases ctx with
    | nil =>
      exact ⟨{ rb₁ with root := rb.fresh }, by rw [if_pos (by rfl)]; rfl, trivial, rfl,
        fun _ _ => rfl, rfl, rfl⟩
    | cons f ctx =>
      obtain ⟨rb₂, hset, hctx₂, hne₂, hroot₂, hsize₂, hfresh₂⟩ :=
        setChild_spec hctx₁ h.split.2.1 rb.fresh
      obtain ⟨hfn, hfcell, -, -⟩ := hctx₁
      refine ⟨rb₂, ?_, hctx₂, ?_, fun a ha => hne₂ a ?_, hsize₂, hfresh₂⟩
      · rw [parentAddr, if_neg hfn, get_eq hfcell, Exec.ok_bind, cell_key]
        have hside := hb.side ho
        cases hs : f.side with
        | left => rw [if_pos (hside.mpr hs), ← hs, hset]
        | right => rw [if_neg (fun hc => by rw [hside.mp hc] at hs; cases hs), ← hs, hset]
      · rw [hroot₂]
        exact h.root.trans addr_plug
      · rintro rfl
        exact ha (mem_ctxAddrs_cons.mpr (.inl rfl))
  have hout : rb.fresh ∉ ctxAddrs ctx := fun hm => (hfresh _ hm).ne rfl
  have hperm : (addrs (plug ctx (join .left .red .leaf x .leaf))).Perm
      (rb.fresh :: addrs (plug ctx .leaf)) := by
    rw [addrs, addrs, toList_plug, toList_plug]
    simp [join, toList, hx]
  refine ⟨{ rb₂ with size := rb₂.size + 1 }, ?_, ⟨?_, rep_plug.mpr ⟨?_, rep_join.mpr ⟨hxn, ?_, trivial,
    trivial⟩⟩, ?_, ?_, ?_, ?_⟩, by rw [hsize₂], fun a ha => ?_⟩
  · exact congrArg (· >>= fun rb' : RBtree K V =>
      (pure ({ rb' with size := rb'.size + 1 }, rb.fresh) : Exec _)) hlink
  · rw [addr_plug, addr_join]
    exact hroot₂
  · rw [addr_join]
    exact hctx₂
  · exact (hne₂ _ hout).trans hself₁
  · rw [hperm.nodup_iff, List.nodup_cons]
    exact ⟨fun hm => (h.fresh.2 _ hm).ne rfl, h.nodup⟩
  · change nil < rb₂.fresh ∧ ∀ a ∈ _, a < rb₂.fresh
    rw [hfresh₂]
    refine ⟨Nat.succ_pos _, fun a ha => ?_⟩
    rcases List.mem_cons.mp (hperm.mem_iff.mp ha) with rfl | ha
    · exact Nat.lt_succ_self _
    · exact Nat.lt_succ_of_lt (h.fresh.2 a ha)
  · change ∃ m, rb₂.node nil = some m ∧ _
    rw [hne₂ nil fun hm => h.repCtx.ne_nil hm rfl, hne₁ nil hxn.symm]
    exact h.sentinel
  · have hlen := hperm.length_eq
    have hsize := h.size
    simp only [addrs, List.length_map, List.length_cons] at hlen
    change _ ≤ rb₂.size + 1
    omega
  · rw [hperm.mem_iff, List.mem_cons, Holds.mem_plug] at ha
    exact (hne₂ a fun hm => ha (.inr (.inr hm))).trans (hne₁ a fun heq => ha (.inl heq))

/-! ## The operations -/

/-- A well-formed tree: the pointers are those of the red-black tree `t`, whose keys are in strictly
increasing order, no other node is in memory, and `size` is the number of its nodes. -/
structure Inv (compare : K → K → Int) (rb : RBtree K V) (t : Tree (Entry K V)) : Prop where
  holds : Holds rb t
  redBlack : IsRedBlack t
  sorted : Sorted compare (data t.toList)
  size : rb.size = t.toList.length
  live : ∀ a ≠ nil, a ∉ addrs t → rb.node a = none

theorem inv_create (compare : K → K → Int) (dummy : RBnode K V) :
    Inv compare (create dummy) .leaf where
  holds := ⟨rfl, trivial, List.nodup_nil, ⟨Nat.one_pos, by simp [addrs, toList]⟩,
    ⟨{ dummy with color := .black }, by simp [create], rfl⟩, Nat.zero_le _⟩
  redBlack := ⟨rfl, ⟨0, rfl⟩, trivial⟩
  sorted := List.Pairwise.nil
  size := rfl
  live := fun a ha _ => by simp [create, ha]

/-- The node of an element of the tree. -/
theorem Rep.node_of_mem {node : Addr → Option (RBnode K V)} {p : Addr} (h : Rep node p t)
    (hx : x ∈ t.toList) : x.addr ≠ nil ∧ ∃ m, node x.addr = some m ∧ m.key = x.key ∧ m.val = x.val := by
  induction t generalizing p with
  | leaf => simp [toList] at hx
  | node c l y r ihl ihr =>
    obtain ⟨hy, hcell, hl, hr⟩ := h
    simp only [toList, List.mem_append, List.mem_cons] at hx
    rcases hx with hx | rfl | hx
    · exact ihl hl hx
    · exact ⟨hy, _, hcell, rfl, rfl⟩
    · exact ihr hr hx

theorem compare_self (ho : StrictOrder compare) (k : K) : compare k k ≠ -1 := by
  rw [(ho.eq k k).mpr rfl]
  decide

theorem compare_asymm (ho : StrictOrder compare) {a b : K} (h : compare a b = -1) :
    compare b a ≠ -1 :=
  fun hba => compare_self ho a (ho.trans a b a h hba)

/-- A key that belongs in the place of a leaf is not in the tree. -/
theorem Between.absent (ho : StrictOrder compare) (hb : Between compare key ctx) (v : V) :
    (key, v) ∉ data (plug ctx .leaf).toList := by
  rw [toList_plug, toList, List.append_nil, data_append]
  intro hm
  rcases List.mem_append.mp hm with hm | hm
  · obtain ⟨x, hx, heq⟩ := List.mem_map.mp hm
    obtain ⟨rfl, -⟩ := Prod.mk.inj heq
    exact compare_self ho _ (hb.1 x hx)
  · obtain ⟨x, hx, heq⟩ := List.mem_map.mp hm
    obtain ⟨rfl, -⟩ := Prod.mk.inj heq
    exact compare_self ho _ (hb.2 x hx)

theorem Between.compare_ne {f : Frame (Entry K V)} (ho : StrictOrder compare)
    (hb : Between compare key (f :: ctx)) : compare key f.elt.key ≠ 0 := by
  intro heq
  obtain rfl := (ho.eq _ _).mp heq
  have hmem : f.elt ∈ before (f :: ctx) ∨ f.elt ∈ after (f :: ctx) := by
    obtain ⟨s, c, x, u⟩ := f
    cases s with
    | left => exact .inr (by simp [after])
    | right => exact .inl (by simp [before])
  rcases hmem with hm | hm
  · exact compare_self ho _ (hb.1 _ hm)
  · exact compare_self ho _ (hb.2 _ hm)

/-- **`RBtree_find`** returns the node of a key in the tree, and the end for any other key. -/
theorem RBtreeFind_spec (ho : StrictOrder compare) (I : Inv compare rb t) (key : K) :
    (∃ x ∈ t.toList, x.key = key ∧ rb.RBtreeFind compare key = .ok x.addr) ∨
      (∀ v, (key, v) ∉ data t.toList) ∧ rb.RBtreeFind compare key = .ok nil := by
  obtain ⟨ctx, t', a, hfind, rfl, hb, ⟨rfl, rfl⟩ | ⟨c, l, x, r, rfl, rfl, rfl⟩⟩ :=
    find_spec ho I.holds I.sorted key
  · refine .inr ⟨fun v => hb.absent ho v, ?_⟩
    rw [RBtreeFind, hfind, Exec.ok_bind]
    cases ctx with
    | nil => rfl
    | cons f ctx =>
      have h := I.holds.up
      rw [parentAddr, if_neg h.ne_nil, h.get_join, Exec.ok_bind, cell_key,
        if_neg (hb.compare_ne ho)]
      rfl
  · refine .inl ⟨x, ?_, rfl, ?_⟩
    · rw [toList_plug]
      simp [toList]
    · have h : Holds rb (plug ctx (join .left c l x r)) := I.holds
      rw [RBtreeFind, hfind, Exec.ok_bind, if_neg h.ne_nil, h.get_join, Exec.ok_bind, cell_key,
        if_pos ((ho.eq _ _).mpr rfl)]
      rfl

/-- **`RBtree_insert`** refuses a key in the tree and puts any other key in its place. -/
theorem RBtreeInsert_spec (ho : StrictOrder compare) (I : Inv compare rb t) (key : K) (val : V) :
    (∃ v, (key, v) ∈ data t.toList) ∧ rb.RBtreeInsert compare key val = .ok (nil, rb) ∨
      (∀ v, (key, v) ∉ data t.toList) ∧ ∃ x rb' t' P Q,
        rb.RBtreeInsert compare key val = .ok (x.addr, rb') ∧ x ∈ t'.toList ∧ x.key = key ∧
        x.val = val ∧ Inv compare rb' t' ∧ data t.toList = P ++ Q ∧
        data t'.toList = P ++ (key, val) :: Q := by
  obtain ⟨ctx, t', a, hfind, rfl, hb, ⟨rfl, rfl⟩ | ⟨c, l, x, r, rfl, rfl, rfl⟩⟩ :=
    find_spec ho I.holds I.sorted key
  · right
    refine ⟨fun v => hb.absent ho v, ?_⟩
    obtain ⟨rb₁, hlink, h₁, hsize₁, hnode₁⟩ := linkNode_spec ho I.holds hb val
    obtain ⟨n, hn, -, -, hs⟩ := sound_of_isRedBlack I.redBlack
    obtain rfl : n = 0 := hn
    have hi : Inserting ctx (join .left .red .leaf ⟨rb.fresh, key, val⟩ .leaf) 0 :=
      ⟨rfl, ⟨0, rfl, rfl, rfl⟩, ⟨fun _ => ⟨rfl, rfl⟩, trivial, trivial⟩, hs⟩
    obtain ⟨rb', t', hfix, r, hrb⟩ := insertFixUp_spec h₁ hi
    have hold : data (plug ctx .leaf).toList = data (before ctx) ++ data (after ctx) := by
      rw [toList_plug, toList, List.append_nil, data_append]
    have hnew : data t'.toList = data (before ctx) ++ (key, val) :: data (after ctx) := by
      rw [r.toList, toList_plug, data_append, data_append, List.append_assoc]
      rfl
    refine ⟨⟨rb.fresh, key, val⟩, rb', t', _, _, ?_, ?_, rfl, rfl, ⟨r.holds, hrb, ?_, ?_, ?_⟩, hold,
      hnew⟩
    · have hfound : (do
          if parentAddr ctx = nil then return false
          else return decide (compare key (← rb.get (parentAddr ctx)).key = 0) : Exec Bool) =
          .ok false := by
        cases ctx with
        | nil => rfl
        | cons f ctx =>
          have h := I.holds.up
          rw [parentAddr, if_neg h.ne_nil, h.get_join, Exec.ok_bind, cell_key,
            decide_eq_false (hb.compare_ne ho)]
          rfl
      rw [RBtreeInsert, hfind, Exec.ok_bind, hfound, Exec.ok_bind]
      rw [addr_join] at hfix
      simp only [Bool.false_eq_true, if_false, hlink, Exec.ok_bind, hfix]
      rfl
    · rw [r.toList, toList_plug]
      simp [join, toList]
    · -- the new key is between the keys on its two sides
      have hs := I.sorted
      rw [hold] at hs
      obtain ⟨hl, hr, hlr⟩ := List.pairwise_append.mp hs
      rw [hnew]
      refine List.pairwise_append.mpr ⟨hl, List.pairwise_cons.mpr ⟨fun b hb' => ?_, hr⟩,
        fun a ha b hb' => ?_⟩
      · obtain ⟨y, hy, rfl⟩ := List.mem_map.mp hb'
        exact hb.2 y hy
      · rcases List.mem_cons.mp hb' with rfl | hb'
        · obtain ⟨y, hy, rfl⟩ := List.mem_map.mp ha
          exact hb.1 y hy
        · exact hlr a ha b hb'
    · have hlen := congrArg List.length hnew
      have hlen₀ := congrArg List.length hold
      simp only [data, List.length_map, List.length_append, List.length_cons] at hlen hlen₀
      have := I.size
      rw [r.size, hsize₁]
      omega
    · intro a ha hat
      rw [r.addrs] at hat
      rw [r.frame a ha hat, hnode₁ a hat]
      refine I.live a ha fun hm => hat ((Holds.mem_plug ..).mpr (.inr ?_))
      simpa [addrs, toList] using (Holds.mem_plug ..).mp hm
  · left
    have h : Holds rb (plug ctx (join .left c l x r)) := I.holds
    refine ⟨⟨x.val, ?_⟩, ?_⟩
    · rw [toList_plug]
      exact List.mem_map.mpr ⟨x, by simp [toList], rfl⟩
    · rw [RBtreeInsert, hfind, Exec.ok_bind, if_neg h.ne_nil, h.get_join, Exec.ok_bind, cell_key,
        decide_eq_true ((ho.eq _ _).mpr rfl)]
      rfl

/-- **`rb_iter_set_second`** at a node of the tree. -/
theorem iterSetSecond_spec (I : Inv compare rb t) {it : Addr} (hit : it ≠ nil)
    (hlive : rb.node it ≠ none) (val : V) :
    ∃ x ∈ t.toList, x.addr = it ∧ ∃ rb' t' P Q, rb.iterSetSecond it val = .ok rb' ∧
      Inv compare rb' t' ∧ data t.toList = P ++ (x.key, x.val) :: Q ∧
      data t'.toList = P ++ (x.key, val) :: Q := by
  have hmem : it ∈ addrs t := by
    by_contra hm
    exact hlive (I.live it hit hm)
  obtain ⟨x, hx, rfl⟩ := List.mem_map.mp hmem
  obtain ⟨ctx, c, l, r, rfl⟩ := exists_plug_of_mem hx
  have h : Holds rb (plug ctx (join .left c l x r)) := I.holds
  have hrb : IsRedBlack (plug ctx (join .left c l x r)) := I.redBlack
  set x' : Entry K V := ⟨x.addr, x.key, val⟩ with hx'
  have hdata : ∀ z : Entry K V, data (plug ctx (join .left c l z r)).toList =
      data (before ctx ++ l.toList) ++ (z.key, z.val) :: data (r.toList ++ after ctx) := by
    intro z
    rw [toList_plug]
    simp [join, toList]
  refine ⟨x, hx, rfl, rb.put x.addr (cell .left (parentAddr ctx) (addr l) (addr r) c x'), _, _, _, ?_,
    ⟨put_spec h c x' rfl, hrb.setElt x', ?_, ?_, fun a ha hat => ?_⟩, hdata x, hdata x'⟩
  · rw [iterSetSecond, h.get_join]
    rfl
  · exact (Sorted.keys_iff (by rw [hdata, hdata]; simp [hx'])).mp
      (show Sorted compare (data (plug ctx (join .left c l x r)).toList) from I.sorted)
  · have hlen := congrArg List.length (hdata x)
    have hlen' := congrArg List.length (hdata x')
    have hsize : rb.size = (plug ctx (join .left c l x r)).toList.length := I.size
    simp only [data, List.length_map, List.length_append, List.length_cons] at hlen hlen'
    change rb.size = _
    omega
  · have hax : a ≠ x.addr := by
      rintro rfl
      exact hat ((Holds.mem_plug ..).mpr (.inl (mem_addrs_join.mpr (.inl rfl))))
    rw [put_node_of_ne hax]
    rw [addrs_setElt (show x'.addr = x.addr from rfl)] at hat
    exact I.live a ha hat

end RBtree

end Kendylib
