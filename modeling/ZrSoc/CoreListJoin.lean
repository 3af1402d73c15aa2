import ZrSoc.CoreState
import ZrSoc.CoreMatrix

/-!
# The linked list of the benchmark

Model of `core_list_join.c`, for list cells with addresses in `P` and list items with addresses in `Q`.  A null pointer
is `none`, and a function that would follow a null pointer returns `none`.

A loop of the source whose turns nothing bounds has an argument `fuel` that bounds them; running out of it is `none`
as well.
-/

namespace CoreMark

/-- `list_data`. -/
structure ListData where
  data16 : BitVec 16
  idx : BitVec 16
  deriving DecidableEq, Repr

/-- The cells `list_head` in memory. -/
@[ext] structure Heads (P Q : Type) where
  next : P → Option P
  info : P → Q

/-- `core_results`: the inputs and outputs of a run, with the memory of the state machine and the matrices. -/
structure Results where
  seed1 : BitVec 16
  seed2 : BitVec 16
  seed3 : BitVec 16
  memblock3 : List (BitVec 8)
  size : ℕ
  iterations : ℕ
  mat : MatParams
  crc : BitVec 16
  crclist : BitVec 16
  crcmatrix : BitVec 16
  crcstate : BitVec 16

/-- What a comparison reads and writes: the items of the list and the results. -/
structure Store (Q : Type) where
  infos : Q → ListData
  res : Results

variable {P Q : Type} [DecidableEq P] [DecidableEq Q]

/-- `p->next = v`. -/
def Heads.setNext (h : Heads P Q) (p : P) (v : Option P) : Heads P Q :=
  { h with next := Function.update h.next p v }

/-- `p->info = v`. -/
def Heads.setInfo (h : Heads P Q) (p : P) (v : Q) : Heads P Q :=
  { h with info := Function.update h.info p v }

/-- `*pdata = v`. -/
def Store.setData16 (s : Store Q) (q : Q) (v : BitVec 16) : Store Q :=
  { s with infos := Function.update s.infos q { s.infos q with data16 := v } }

/-! ### Comparing items -/

/-- The specific data for the operation, with the lower 4 bits replicated to get an 8b value. -/
def dtypeOf (data : BitVec 16) : BitVec 16 :=
  let dtype := (data >>> 3) &&& 0xf
  dtype ||| (dtype <<< 4)

/-- Set min period for bit corruption. -/
def minStep (dtype : BitVec 16) : BitVec 16 := if dtype.toInt < 0x22 then 0x22 else dtype

/-- The `switch` of `calc_func`: the value of an item whose value has not been calculated yet. -/
def calculate (data : BitVec 16) (res : Results) : Option (BitVec 16 × Results) :=
  match (data &&& 0x7).toNat with
  | 0 =>
    (coreBenchState res.size res.memblock3 res.seed1 res.seed2 (minStep (dtypeOf data)) res.crc).map
      fun (retval, memblock) =>
        (retval, { res with
          memblock3 := memblock
          crcstate := if res.crcstate = 0 then retval else res.crcstate })
  | 1 =>
    (coreBenchMatrix res.mat (dtypeOf data) res.crc).map fun (retval, mat) =>
      (retval, { res with
        mat := mat
        crcmatrix := if res.crcmatrix = 0 then retval else res.crcmatrix })
  | _ => some (data, res)

def calcFunc (q : Q) (s : Store Q) : Option (BitVec 16 × Store Q) :=
  let data := (s.infos q).data16
  -- if cached, use cache
  if (data >>> 7) &&& 1 = 1 then some (data &&& 0x7f, s)
  else
    (calculate data s.res).map fun (retval, res) =>
      let res := { res with crc := crcu16 retval res.crc }
      let retval := retval &&& 0x7f
      (retval, Store.setData16 { s with res := res } q ((data &&& 0xff00) ||| 0x0080 ||| retval))

/-- `list_cmp`. -/
abbrev ListCmp (Q σ : Type) := Q → Q → σ → Option (ℤ × σ)

def cmpComplex : ListCmp Q (Store Q) := fun a b s => do
  let (val1, s) ← calcFunc a s
  let (val2, s) ← calcFunc b s
  return (val1.toInt - val2.toInt, s)

/-- The item gets the data that its upper byte keeps. -/
def regenerate (data : BitVec 16) : BitVec 16 := (data &&& 0xff00) ||| (0x00ff &&& data.sshiftRight 8)

/-- `cmp_idx`, for a call with or without results. -/
def cmpIdx (null : Bool) : ListCmp Q (Store Q) := fun a b s =>
  let s := if null then
      let s := s.setData16 a (regenerate (s.infos a).data16)
      s.setData16 b (regenerate (s.infos b).data16)
    else s
  some ((s.infos a).idx.toInt - (s.infos b).idx.toInt, s)

/-! ### List operations -/

/-- Follow the list while `cond` holds. -/
def findLoop (next : P → Option P) (cond : P → Bool) : ℕ → Option P → Option (Option P)
  | _, none => some none
  | 0, some _ => none
  | fuel + 1, some p => if cond p then findLoop next cond fuel (next p) else some (some p)

def coreListFind (fuel : ℕ) (h : Heads P Q) (infos : Q → ListData) (list : Option P) (info : ListData) :
    Option (Option P) :=
  if 0 ≤ info.idx.toInt then
    findLoop h.next (fun p => (infos (h.info p)).idx != info.idx) fuel list
  else
    findLoop h.next (fun p => ((infos (h.info p)).data16 &&& 0xff) != info.data16) fuel list

/-- The loop of `core_list_reverse`: `next` is what has been reversed. -/
def reverseLoop : ℕ → Heads P Q → Option P → Option P → Option (Option P × Heads P Q)
  | _, h, none, next => some (next, h)
  | 0, _, some _, _ => none
  | fuel + 1, h, some list, next => reverseLoop fuel (h.setNext list next) (h.next list) (some list)

def coreListReverse (fuel : ℕ) (h : Heads P Q) (list : Option P) : Option (Option P × Heads P Q) :=
  reverseLoop fuel h list none

/-- The removed item, and the cells. -/
def coreListRemove (h : Heads P Q) (item : P) : Option (P × Heads P Q) := do
  let ret ← h.next item
  -- swap data pointers
  let tmp := h.info item
  let h := h.setInfo item (h.info ret)
  let h := h.setInfo ret tmp
  -- and eliminate item
  let h := h.setNext item (h.next ret)
  return (ret, h.setNext ret none)

def coreListUndoRemove (h : Heads P Q) (itemRemoved itemModified : P) : Heads P Q :=
  -- swap data pointers
  let tmp := h.info itemRemoved
  let h := h.setInfo itemRemoved (h.info itemModified)
  let h := h.setInfo itemModified tmp
  -- and insert item
  let h := h.setNext itemRemoved (h.next itemModified)
  h.setNext itemModified (some itemRemoved)

/-! ### Merge sort -/

/-- The list that a pass has put together, and what the comparisons have done. -/
structure Merged (P Q σ : Type) where
  heads : Heads P Q
  res : σ
  list : Option P
  tail : Option P

variable {σ : Type}

/-- Add the next element to the merged list. -/
def Merged.push (m : Merged P Q σ) (e : P) : Merged P Q σ :=
  match m.tail with
  | some tail => { m with heads := m.heads.setNext tail (some e), tail := some e }
  | none => { m with list := some e, tail := some e }

/-- The loop that merges the list at `p`, of `psize` elements, and the list at `q`, of at most `qsize` elements; it
returns the pointer behind them. -/
def mergeLoop (cmp : ListCmp Q σ) (psize qsize : ℕ) (p q : Option P) (m : Merged P Q σ) :
    Option (Option P × Merged P Q σ) :=
  if hturn : 0 < psize ∨ 0 < qsize ∧ q.isSome then
    -- p is empty; e must come from q
    if hp : psize = 0 then
      q.bind fun e => mergeLoop cmp psize (qsize - 1) p (m.heads.next e) (m.push e)
    -- q is empty; e must come from p
    else if hq : qsize = 0 ∨ q.isNone then
      p.bind fun e => mergeLoop cmp (psize - 1) qsize (m.heads.next e) q (m.push e)
    else
      p.bind fun a => q.bind fun b =>
        (cmp (m.heads.info a) (m.heads.info b) m.res).bind fun (r, res) =>
          let m := { m with res := res }
          if r ≤ 0 then mergeLoop cmp (psize - 1) qsize (m.heads.next a) q (m.push a)
          else mergeLoop cmp psize (qsize - 1) p (m.heads.next b) (m.push b)
  else some (q, m)
termination_by psize + qsize

/-- Step at most `i` places along the list from `q`: the number of steps, and the pointer behind them. -/
def stepAlong (next : P → Option P) : ℕ → ℕ → P → ℕ × Option P
  | 0, psize, q => (psize, some q)
  | i + 1, psize, q =>
    match next q with
    | none => (psize + 1, none)
    | some q => stepAlong next i (psize + 1) q

/-- The loop of one pass, from the list at `p` on. -/
def passLoop (cmp : ListCmp Q σ) (insize : ℕ) : ℕ → ℕ → Option P → Merged P Q σ → Option (ℕ × Merged P Q σ)
  | _, nmerges, none, m => some (nmerges, m)
  | 0, _, some _, _ => none
  | fuel + 1, nmerges, some p, m =>
    let (psize, q) := stepAlong m.heads.next insize 0 p
    (mergeLoop cmp psize insize (some p) q m).bind fun (q, m) => passLoop cmp insize fuel (nmerges + 1) q m

/-- The loop over the passes, from runs of `insize` elements on.  The size of the runs is an `ee_s32`, and must not get
too large for one. -/
def sortLoop (cmp : ListCmp Q σ) (turns : ℕ) : ℕ → ℕ → Option P → Heads P Q → σ → Option (Option P × Heads P Q × σ)
  | 0, _, _, _, _ => none
  | fuel + 1, insize, list, h, res =>
    (passLoop cmp insize turns 0 list ⟨h, res, none, none⟩).bind fun (nmerges, m) =>
      m.tail.bind fun tail =>
        let h := m.heads.setNext tail none
        if nmerges ≤ 1 then some (m.list, h, m.res)
        -- otherwise repeat, merging lists twice the size
        else if 2 ^ 31 ≤ insize * 2 then none
        else sortLoop cmp turns fuel (insize * 2) m.list h m.res

def coreListMergesort (fuel : ℕ) (cmp : ListCmp Q σ) (list : Option P) (h : Heads P Q) (res : σ) :
    Option (Option P × Heads P Q × σ) :=
  sortLoop cmp fuel fuel 1 list h res

/-! ### The benchmark -/

/-- The cells, the items and the results. -/
structure Memory (P Q : Type) where
  heads : Heads P Q
  store : Store Q

/-- The variables of the loop of `core_bench_list` that looks for items. -/
structure Finds (P Q : Type) where
  heads : Heads P Q
  list : Option P
  info : ListData
  retval : BitVec 16
  found : BitVec 16
  missed : BitVec 16

/-- Cache the item behind `thisFind` at the head of the list, if there is one. -/
def cacheNext (h : Heads P Q) (list thisFind : P) : Heads P Q :=
  match h.next thisFind with
  | none => h
  | some finder =>
    let h := h.setNext thisFind (h.next finder)
    let h := h.setNext finder (h.next list)
    h.setNext list (some finder)

/-- One turn of the loop that looks for items. -/
def findTurn (fuel : ℕ) (infos : Q → ListData) (i : BitVec 16) (v : Finds P Q) : Option (Finds P Q) := do
  let info : ListData := { v.info with data16 := i &&& 0xff }
  let thisFind ← coreListFind fuel v.heads infos v.list info
  let (list, h) ← coreListReverse fuel v.heads v.list
  let head ← list
  let info : ListData := if 0 ≤ info.idx.toInt then { info with idx := info.idx + 1 } else info
  match thisFind with
  | none =>
    let second ← h.next head
    let retval := v.retval + (((infos (h.info second)).data16 >>> 8) &&& 1)
    return { v with heads := h, list := list, info := info, retval := retval, missed := v.missed + 1 }
  | some thisFind =>
    let data16 := (infos (h.info thisFind)).data16
    -- use found value
    let retval := if data16 &&& 0x1 ≠ 0 then v.retval + ((data16 >>> 9) &&& 1) else v.retval
    return { v with
      heads := cacheNext h head thisFind
      list := list
      info := info
      retval := retval
      found := v.found + 1 }

/-- The turns that are left of the loop, from `i` on. -/
def findTurns (fuel : ℕ) (infos : Q → ListData) : ℕ → BitVec 16 → Finds P Q → Option (Finds P Q)
  | 0, _, v => some v
  | n + 1, i, v => (findTurn fuel infos i v).bind (findTurns fuel infos n (i + 1))

/-- CRC the data of the head once for every item from `finder` on. -/
def crcLoop (next : P → Option P) (data16 : BitVec 16) : ℕ → Option P → BitVec 16 → Option (BitVec 16)
  | _, none, retval => some retval
  | 0, some _, _ => none
  | fuel + 1, some finder, retval => crcLoop next data16 fuel (next finder) (crc16 data16 retval)

/-- The sort by data content, which some runs leave out. -/
def sortByData (fuel : ℕ) (finderIdx : BitVec 16) (list : Option P) (h : Heads P Q) (store : Store Q) :
    Option (Option P × Heads P Q × Store Q) :=
  if 0 < finderIdx.toInt then coreListMergesort fuel cmpComplex list h store else some (list, h, store)

/-- `core_bench_list`; `junk` is what `info.data16` holds before the first turn. -/
def coreBenchList (fuel : ℕ) (junk : BitVec 16) (list : Option P) (m : Memory P Q) (finderIdx : BitVec 16) :
    Option (BitVec 16 × Memory P Q) := do
  let findNum := m.store.res.seed3
  -- find values in the list, and change the list each time
  let v ← findTurns fuel m.store.infos findNum.toInt.toNat 0 ⟨m.heads, list, ⟨junk, finderIdx⟩, 0, 0, 0⟩
  let retval := v.retval + (v.found * 4 - v.missed)
  -- sort the list by data content and remove one item
  let (list, h, store) ← sortByData fuel finderIdx v.list v.heads m.store
  let head ← list
  let (remover, h) ← (h.next head).bind (coreListRemove h)
  -- CRC data content of list from location of index N forward, and then undo remove
  let finder ← coreListFind fuel h store.infos list v.info
  let finder := if finder.isSome then finder else h.next head
  let retval ← crcLoop h.next (store.infos (h.info head)).data16 fuel finder retval
  let second ← h.next head
  let h := coreListUndoRemove h remover second
  -- sort the list by index, in effect returning the list to original state
  let (list, h, store) ← coreListMergesort fuel (cmpIdx true) list h store
  -- CRC data content of list
  let head ← list
  let retval ← crcLoop h.next (store.infos (h.info head)).data16 fuel (h.next head) retval
  return (retval, ⟨h, store⟩)

/-! ### The initial list -/

/-- The two memory blocks of a new list, of `size` cells and `size` items: addresses are indices into them, and
`memblock` and `datablock` are the first that are free. -/
structure Blocks where
  heads : Heads ℕ ℕ
  infos : ℕ → ListData
  memblock : ℕ
  datablock : ℕ

/-- `core_list_insert_new`; without room for a new item nothing changes. -/
def coreListInsertNew (size : ℕ) (insertPoint : ℕ) (info : ListData) (b : Blocks) : Blocks :=
  if size ≤ b.memblock + 1 then b
  else if size ≤ b.datablock + 1 then b
  else
    let newitem := b.memblock
    let h := b.heads.setNext newitem (b.heads.next insertPoint)
    let h := h.setNext insertPoint (some newitem)
    let h := h.setInfo newitem b.datablock
    ⟨h, Function.update b.infos b.datablock info, b.memblock + 1, b.datablock + 1⟩

/-- The item that is inserted in turn `i`, with the index of the tail. -/
def newInfo (seed : BitVec 16) (i : ℕ) : ListData :=
  let datpat := (seed ^^^ BitVec.ofNat 16 i) &&& 0xf
  let dat := (datpat <<< 3) ||| (BitVec.ofNat 16 i &&& 0x7)
  -- fill the data with actual data and upper bits with rebuild value
  ⟨(dat <<< 8) ||| dat, 0x7fff⟩

/-- The index of the `i`-th item of the list. -/
def newIdx (size : ℕ) (seed : BitVec 16) (i : ℕ) : BitVec 16 :=
  -- first 20% of the list in order
  if i < size / 5 then BitVec.ofNat 16 i
  else
    let pat := BitVec.ofNat 16 i ^^^ seed
    -- make sure the mixed items end up after the ones in sequence
    0x3fff &&& (((BitVec.ofNat 16 (i + 1) &&& 0x07) <<< 8) ||| pat)

/-- The loop that indexes the list. -/
def indexLoop (size : ℕ) (seed : BitVec 16) (h : Heads ℕ ℕ) : ℕ → ℕ → ℕ → (ℕ → ListData) → Option (ℕ → ListData)
  | 0, _, _, _ => none
  | fuel + 1, i, finder, infos =>
    match h.next finder with
    | none => some infos
    | some next =>
      let q := h.info finder
      indexLoop size seed h fuel (i + 1) next (Function.update infos q { infos q with idx := newIdx size seed i })

/-- `core_list_init`, in blocks of memory that hold `b` before. -/
def coreListInit (fuel blksize : ℕ) (b : Heads ℕ ℕ × (ℕ → ListData)) (seed : BitVec 16) (res : Results) :
    Option (Option ℕ × Memory ℕ ℕ) := do
  let size := blksize / 20 - 2
  -- create a fake items for the list head and tail
  let list := 0
  let h := b.1.setNext list none
  let h := h.setInfo list 0
  let b : Blocks := ⟨h, Function.update b.2 0 ⟨0x8080, 0x0000⟩, 1, 1⟩
  let b := coreListInsertNew size list ⟨0xffff, 0x7fff⟩ b
  -- then insert size items
  let b := (List.range size).foldl (fun b i => coreListInsertNew size list (newInfo seed i) b) b
  -- and now index the list so we know initial seed order of the list
  let finder ← b.heads.next list
  let infos ← indexLoop size seed b.heads fuel 1 finder b.infos
  let (list, h, store) ← coreListMergesort fuel (cmpIdx true) (some list) b.heads ⟨infos, res⟩
  return (list, ⟨h, store⟩)

end CoreMark
