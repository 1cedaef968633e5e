import SegList.Model.Trace
import SegList.Driver.Rounds

/-!
# read_trace

* `read_layout`      what `read_trace` does depends on the words of the file, not on the white space
                     between them;
* `read_printed`     what it does with a printed trace, whatever its two counts say;
* `read_accepted`    what it returns is well formed.

All three are about the loop, one request after the other: `readOp_agree`, `readOp_printed`,
`Reader.Sound.readOp` are the steps.
-/

set_option linter.unusedSectionVars false

open Bytes Scan

namespace SegList

section
variable {env : Env} {path : String} {room fuel : Nat} {type : List Char} {r r' : Reader}
  {s s' : List Char} {old : Int} {n : Nat} {op : TraceOp} {ops : List TraceOp}

/-! ## layout -/

lemma number_cases (h : words s = words s') : ∃ o t t', number s = (o, t) ∧ number s' = (o, t') ∧
    Alike t t' := by
  obtain ⟨h1, h2⟩ := number_alike h
  exact ⟨(number s).1, (number s).2, (number s').2, rfl, Prod.ext h1.symm rfl, h2⟩

lemma scanInt_agree (h : words s = words s') : Agree SameWords (scanInt old s) (scanInt old s') := by
  obtain ⟨o, t, t', h1, h2, h3⟩ := number_cases h
  unfold scanInt
  rw [h1, h2]
  cases o with
  | none => exact .ok old h3.words
  | some i =>
    by_cases hi : FitsInt i
    · simp only [if_pos hi]
      exact .ok i h3.words
    · simp only [if_neg hi]
      exact .error _

lemma scanUnsigned_agree (h : words s = words s') : Agree Alike (scanUnsigned s) (scanUnsigned s') := by
  obtain ⟨o, t, t', h1, h2, h3⟩ := number_cases h
  unfold scanUnsigned
  rw [h1, h2]
  cases o with
  | none => exact .ok none h3
  | some i =>
    by_cases hi : i.natAbs < 2 ^ 32
    · simp only [if_pos hi]
      exact .ok _ h3
    · simp only [if_neg hi]
      exact .error _

lemma scanTwo_agree (h : words s = words s') : Agree SameWords (scanTwo r s) (scanTwo r s') := by
  refine (scanUnsigned_agree h).bind fun o t t' ht => ?_
  cases o with
  | none => exact .ok r ht.words
  | some index =>
    refine (scanUnsigned_agree ht.words).bind fun size u u' hu => ?_
    exact .ok _ hu.words

lemma scanOne_agree (h : words s = words s') : Agree SameWords (scanOne r s) (scanOne r s') := by
  refine (scanUnsigned_agree h).bind fun o t t' ht => ?_
  cases o with
  | none => exact .ok r ht.words
  | some index => exact .ok _ (literal_alike (by decide) ht)

/-- storing the request looks at no text -/
lemma push_agree (h : SameWords s s') (f : Reader → Reader) :
    Agree SameWords (r.push room op >>= fun r => pure (f r, s))
      (r.push room op >>= fun r => pure (f r, s')) := by
  cases r.push room op with
  | error e => exact .error e
  | ok r => exact .ok _ h

/-- **One round** from texts with the same words. -/
lemma readOp_agree (h : words s = words s') :
    Agree SameWords (readOp env path room type r s) (readOp env path room type r s') := by
  have hsized : ∀ type,
      Agree SameWords (readSized room type r s) (readSized room type r s') := fun type =>
    (scanTwo_agree h).bind fun r _ _ ht => push_agree ht Reader.maximum
  unfold readOp
  split
  · exact hsized .alloc
  · exact hsized .realloc
  · exact (scanOne_agree h).bind fun r _ _ ht => push_agree ht id
  · exact .error _
  · exact .error _

lemma readHeader_agree (h : words s = words s') :
    Agree SameWords (readHeader env s) (readHeader env s') := by
  refine (scanInt_agree h).bind fun a t t' ht => ?_
  refine (scanInt_agree ht).bind fun b u u' hu => ?_
  refine (scanInt_agree hu).bind fun c v v' hv => ?_
  refine (scanInt_agree hv).bind fun d w w' hw => ?_
  exact .ok _ hw

/-! ## what one round does -/

/-- the variables hold `unsigned`s -/
structure Reader.Fits (r : Reader) : Prop where
  index : r.index < 2 ^ 32
  size : r.size < 2 ^ 32

/-- from `r` and the text `s` the numbers of a request were read -/
structure Scanned (r : Reader) (s : List Char) (r' : Reader) (s' : List Char) : Prop where
  length : s'.length ≤ s.length
  ops : r'.ops = r.ops
  maxIndex : r'.maxIndex = r.maxIndex
  fits : r.Fits → r'.Fits

lemma Scanned.same (h : s'.length ≤ s.length) : Scanned r s r s' := ⟨h, rfl, rfl, id⟩

lemma scanUnsigned_spec {o : Option Nat} (h : scanUnsigned s = .ok (o, s')) :
    s'.length ≤ s.length ∧ ∀ n ∈ o, n < 2 ^ 32 := by
  have hlen := number_length s
  unfold scanUnsigned at h
  generalize number s = y at h hlen
  obtain ⟨o', t⟩ := y
  cases o' with
  | none =>
    obtain ⟨rfl, rfl⟩ := Prod.mk.inj (Except.ok.inj h)
    exact ⟨hlen, fun n hn => absurd hn (by simp)⟩
  | some i =>
    simp only at h
    split at h
    · obtain ⟨rfl, rfl⟩ := Prod.mk.inj (Except.ok.inj h)
      refine ⟨hlen, fun n hn => ?_⟩
      obtain rfl := Option.some.inj hn
      omega
    · exact nomatch h

lemma scanTwo_spec (h : scanTwo r s = .ok (r', s')) : Scanned r s r' s' := by
  obtain ⟨⟨o, t⟩, h1, h2⟩ := bind_eq_ok.mp h
  obtain ⟨hlen, ho⟩ := scanUnsigned_spec h1
  cases o with
  | none =>
    obtain ⟨rfl, rfl⟩ := Prod.mk.inj (Except.ok.inj h2)
    exact .same hlen
  | some index =>
    obtain ⟨⟨o, u⟩, h3, h4⟩ := bind_eq_ok.mp h2
    obtain ⟨hlen', ho'⟩ := scanUnsigned_spec h3
    obtain ⟨rfl, rfl⟩ := Prod.mk.inj (Except.ok.inj h4)
    refine ⟨hlen'.trans hlen, rfl, rfl, fun hr => ⟨ho index rfl, ?_⟩⟩
    cases o with
    | none => exact hr.size
    | some size => exact ho' size rfl

lemma scanOne_spec (h : scanOne r s = .ok (r', s')) : Scanned r s r' s' := by
  obtain ⟨⟨o, t⟩, h1, h2⟩ := bind_eq_ok.mp h
  obtain ⟨hlen, ho⟩ := scanUnsigned_spec h1
  cases o with
  | none =>
    obtain ⟨rfl, rfl⟩ := Prod.mk.inj (Except.ok.inj h2)
    exact .same hlen
  | some index =>
    obtain ⟨rfl, rfl⟩ := Prod.mk.inj (Except.ok.inj h2)
    exact ⟨(literal_length 'd' t).trans hlen, rfl, rfl, fun hr => ⟨ho index rfl, hr.size⟩⟩

lemma push_eq_ok (h : r.push room op = .ok r') :
    r.ops.length < room ∧ r' = { r with ops := r.ops ++ [op] } := by
  unfold Reader.push at h
  split at h
  · rename_i hlt
    exact ⟨hlt, (Except.ok.inj h).symm⟩
  · exact nomatch h

/-- the request read is stored, and its index counted unless it is a `FREE` -/
inductive Stored (env : Env) (r : Reader) : Reader → Prop where
  | sized {type : OpType} : type ≠ .free →
      Stored env r (Reader.maximum { r with ops := r.ops ++ [⟨type, r.index, toInt r.size⟩] })
  | free : Stored env r { r with ops := r.ops ++ [⟨.free, r.index, env.sizes r.ops.length⟩] }

/-- **One round that goes on** reads the numbers of one request and stores it. -/
lemma readOp_spec (h : readOp env path room type r s = .ok (r', s')) :
    ∃ u, Scanned r s u s' ∧ u.ops.length < room ∧ Stored env u r' := by
  have hsized : ∀ type, type ≠ .free → readSized room type r s = .ok (r', s') →
      ∃ u, Scanned r s u s' ∧ u.ops.length < room ∧ Stored env u r' := by
    intro type ht h
    obtain ⟨⟨u, t⟩, h1, h2⟩ := bind_eq_ok.mp h
    obtain ⟨v, h3, h4⟩ := bind_eq_ok.mp h2
    obtain ⟨hlt, rfl⟩ := push_eq_ok h3
    obtain ⟨rfl, rfl⟩ := Prod.mk.inj (Except.ok.inj h4)
    exact ⟨u, scanTwo_spec h1, hlt, .sized ht⟩
  unfold readOp at h
  split at h
  · exact hsized .alloc (by simp) h
  · exact hsized .realloc (by simp) h
  · obtain ⟨⟨u, t⟩, h1, h2⟩ := bind_eq_ok.mp h
    obtain ⟨v, h3, h4⟩ := bind_eq_ok.mp h2
    obtain ⟨hlt, rfl⟩ := push_eq_ok h3
    obtain ⟨rfl, rfl⟩ := Prod.mk.inj (Except.ok.inj h4)
    exact ⟨u, scanOne_spec h1, hlt, .free⟩
  · exact nomatch h
  · exact nomatch h

lemma readOp_length (h : readOp env path room type r s = .ok (r', s')) : s'.length ≤ s.length := by
  obtain ⟨u, hu, -⟩ := readOp_spec h
  exact hu.length

lemma readOps_agree {fuel' : Nat} (hf : s.length < fuel) (hf' : s'.length < fuel')
    (h : words s = words s') :
    readOps env path room fuel r s = readOps env path room fuel' r s' := by
  -- induction on the rounds; both texts lose a word in each
  induction fuel generalizing fuel' r s s' with
  | zero => exact absurd hf (Nat.not_lt_zero _)
  | succ fuel ih =>
    cases fuel' with
    | zero => exact absurd hf' (Nat.not_lt_zero _)
    | succ fuel' =>
      unfold readOps
      rcases word_alike h with ⟨h1, h2⟩ | ⟨w, t, t', h1, h2, h3⟩
      · rw [h1, h2]
      · have hlen := word_length h1
        have hlen' := word_length h2
        rw [h1, h2]
        simp only
        split
        · rfl
        · have hop : Agree SameWords (readOp env path room w r t) (readOp env path room w r t') :=
            readOp_agree h3
          generalize hx : readOp env path room w r t = x at hop
          generalize hy : readOp env path room w r t' = y at hop
          cases hop with
          | error e => rfl
          | @ok a u u' hr =>
            have h4 := readOp_length hx
            have h5 := readOp_length hy
            exact ih (show u.length < fuel by omega) (show u'.length < fuel' by omega) hr

/-- a number that is not there is `old` -/
lemma scanInt_spec {i : Int} (ho : FitsInt old) (h : scanInt old s = .ok (i, s')) :
    s'.length ≤ s.length ∧ FitsInt i := by
  have hlen := number_length s
  unfold scanInt at h
  generalize number s = y at h hlen
  obtain ⟨o, t⟩ := y
  cases o with
  | none =>
    obtain ⟨rfl, rfl⟩ := Prod.mk.inj (Except.ok.inj h)
    exact ⟨hlen, ho⟩
  | some i =>
    simp only at h
    split at h
    · rename_i hi
      obtain ⟨rfl, rfl⟩ := Prod.mk.inj (Except.ok.inj h)
      exact ⟨hlen, hi⟩
    · exact nomatch h

lemma readHeader_spec {f : TraceFile} (h : readHeader env s = .ok (f, s')) :
    s'.length ≤ s.length ∧ f.HeaderFits := by
  have hf := env.header_fits
  obtain ⟨⟨a, t⟩, h1, h⟩ := bind_eq_ok.mp h
  obtain ⟨⟨b, u⟩, h2, h⟩ := bind_eq_ok.mp h
  obtain ⟨⟨c, v⟩, h3, h⟩ := bind_eq_ok.mp h
  obtain ⟨⟨d, w⟩, h4, h⟩ := bind_eq_ok.mp h
  obtain ⟨rfl, rfl⟩ := Prod.mk.inj (Except.ok.inj h)
  obtain ⟨h5, ha⟩ := scanInt_spec hf.suggHeapsize h1
  obtain ⟨h6, hb⟩ := scanInt_spec hf.numIds h2
  obtain ⟨h7, hc⟩ := scanInt_spec hf.numOps h3
  obtain ⟨h8, hd⟩ := scanInt_spec hf.weight h4
  exact ⟨by omega, ⟨ha, hb, hc, hd⟩⟩

end

section
variable {env : Env} {tracedir filename : String} {text text' : List Char}

lemma readText_agree {path : String} (h : words text = words text') :
    readText env path text = readText env path text' := by
  have hh : Agree SameWords (readHeader env text) (readHeader env text') := readHeader_agree h
  unfold readText
  generalize hx : readHeader env text = x at hh
  generalize hy : readHeader env text' = y at hh
  cases hh with
  | error e => rfl
  | @ok f t t' ht =>
    have h1 := (readHeader_spec hx).1
    have h2 := (readHeader_spec hy).1
    have h3 : readOps env path f.room (text.length + 1) ⟨0, env.size, 0, []⟩ t =
        readOps env path f.room (text'.length + 1) ⟨0, env.size, 0, []⟩ t' :=
      readOps_agree (Nat.lt_succ_of_le h1) (Nat.lt_succ_of_le h2) ht
    show (if _ then _ else if _ then _ else if _ then _ else readOps _ _ _ _ _ t >>= _) =
      (if _ then _ else if _ then _ else if _ then _ else readOps _ _ _ _ _ t' >>= _)
    rw [h3]

/-- **The layout of a trace file does not matter**: files with the same words are read alike, also
when reading stops. -/
theorem read_layout (h : words text = words text') :
    readTrace env tracedir filename (some text) = readTrace env tracedir filename (some text') := by
  unfold readTrace
  simp only [readText_agree h]

end

namespace Sample

/-- enough memory, and zeros in it -/
def env : Env where
  gets _ _ := true
  strerror := ""
  header := ⟨0, 0, 0, 0, []⟩
  header_fits := ⟨by decide, by decide, by decide, by decide⟩
  size := 0
  size_lt := Nat.two_pow_pos 32
  sizes _ := 0
  sizes_fit _ := by decide

/-- a block, and the same block free again -/
def file : TraceFile := ⟨20000, 1, 2, 1, [⟨.alloc, 0, 8⟩, ⟨.free, 0, 0⟩]⟩

def text : List Char := "20000\n1\n2\n1\na 0 8\nf 0\n".toList

end Sample

/-- the same words, in another layout -/
theorem read_layout_sample : readTrace Sample.env "./" "a.rep" (some Sample.text) =
    readTrace Sample.env "./" "a.rep" (some " 20000\t1 2\n\n1 a 0\n8 f 0".toList) :=
  read_layout (by decide +kernel)

/-! ## what is returned is well formed -/

/-- the same of what was read so far, with `max_index` for the last id -/
structure Reader.Sound (r : Reader) : Prop where
  fits : r.Fits
  ids : ∀ op ∈ r.ops, op.type ≠ .free → op.index ≤ r.maxIndex
  last : r.maxIndex = 0 ∨ ∃ op ∈ r.ops, op.type ≠ .free ∧ op.index = r.maxIndex
  index : ∀ op ∈ r.ops, op.index < 2 ^ 32
  size : ∀ op ∈ r.ops, FitsInt op.size

section
variable {env : Env} {path tracedir filename : String} {room fuel : Nat} {type : List Char}
  {r r' : Reader} {s s' : List Char} {file : Option (List Char)} {f : TraceFile}

lemma toInt_fits {n : Nat} (h : n < 2 ^ 32) : FitsInt (toInt n) := by
  unfold FitsInt toInt
  split
  · omega
  · omega

namespace Reader.Sound

lemma scanned (h : r.Sound) (hs : Scanned r s r' s') : r'.Sound := by
  refine ⟨hs.fits h.fits, ?_, ?_, ?_, ?_⟩
  · rw [hs.ops, hs.maxIndex]
    exact h.ids
  · rw [hs.ops, hs.maxIndex]
    exact h.last
  · rw [hs.ops]
    exact h.index
  · rw [hs.ops]
    exact h.size

lemma grow (h : r.Sound) {op : TraceOp} {m : Nat} (hi : op.index < 2 ^ 32)
    (hz : FitsInt op.size) (hle : r.maxIndex ≤ m)
    (hop : op.type ≠ .free → op.index ≤ m)
    (hm : m = r.maxIndex ∨ op.type ≠ .free ∧ op.index = m) :
    Reader.Sound { r with ops := r.ops ++ [op], maxIndex := m } := by
  have hmem : ∀ {q : TraceOp}, q ∈ r.ops ++ [op] → q ∈ r.ops ∨ q = op := fun hq =>
    (List.mem_append.mp hq).imp_right List.mem_singleton.mp
  refine ⟨⟨h.fits.index, h.fits.size⟩, fun q hq hf => ?_, ?_, fun q hq => ?_, fun q hq => ?_⟩
  · rcases hmem hq with hq | rfl
    · exact (h.ids q hq hf).trans hle
    · exact hop hf
  · rcases hm with rfl | ⟨ht, he⟩
    · exact h.last.imp_right fun ⟨q, hq, h1⟩ => ⟨q, List.mem_append_left _ hq, h1⟩
    · exact Or.inr ⟨op, List.mem_append_right _ List.mem_cons_self, ht, he⟩
  · rcases hmem hq with hq | rfl
    · exact h.index q hq
    · exact hi
  · rcases hmem hq with hq | rfl
    · exact h.size q hq
    · exact hz

lemma stored (h : r.Sound) (hs : Stored env r r') : r'.Sound := by
  cases hs with
  | @sized type ht =>
    refine h.grow h.fits.index (toInt_fits h.fits.size) ?_ (fun _ => ?_) ?_
    · show r.maxIndex ≤ if r.index > r.maxIndex then r.index else r.maxIndex
      split <;> omega
    · show r.index ≤ if r.index > r.maxIndex then r.index else r.maxIndex
      split <;> omega
    · show (if r.index > r.maxIndex then r.index else r.maxIndex) = r.maxIndex ∨
        type ≠ .free ∧ r.index = if r.index > r.maxIndex then r.index else r.maxIndex
      split
      · exact Or.inr ⟨ht, rfl⟩
      · exact Or.inl rfl
  | free =>
    exact h.grow h.fits.index (env.sizes_fit _) (le_refl _) (fun hf => absurd rfl hf) (Or.inl rfl)

lemma readOp (h : r.Sound) (hr : readOp env path room type r s = .ok (r', s')) : r'.Sound := by
  obtain ⟨u, hu, -, hs⟩ := readOp_spec hr
  exact (h.scanned hu).stored hs

lemma readOps (h : r.Sound) (hr : readOps env path room fuel r s = .ok r') : r'.Sound := by
  induction fuel generalizing r s with
  | zero => exact nomatch hr
  | succ fuel ih =>
    unfold SegList.readOps at hr
    split at hr
    · obtain rfl := Except.ok.inj hr
      exact h
    · split at hr
      · exact nomatch hr
      · obtain ⟨⟨u, t⟩, h1, h2⟩ := bind_eq_ok.mp hr
        exact ih (h.readOp h1) h2

end Reader.Sound

end

def OpType.letter : OpType → Char
  | .alloc => 'a'
  | .free => 'f'
  | .realloc => 'r'

def TraceOp.numbers (op : TraceOp) : List (List Char) :=
  match op.type with
  | .free => [decimal op.index]
  | _ => [decimal op.index, decimal op.size]

def TraceOp.words (op : TraceOp) : List (List Char) := [op.type.letter] :: op.numbers

def TraceFile.words (f : TraceFile) : List (List Char) :=
  decimal f.suggHeapsize :: decimal f.numIds :: decimal f.numOps :: decimal f.weight ::
    f.ops.flatMap TraceOp.words

/-- the numbers of a request are in their types -/
def TraceOp.Printable (op : TraceOp) : Prop := op.index < 2 ^ 32 ∧ FitsInt op.size

instance (op : TraceOp) : Decidable op.Printable := inferInstanceAs (Decidable (_ ∧ _))

/-- and those of a trace file -/
structure TraceFile.Printable (f : TraceFile) : Prop extends f.HeaderFits where
  ops : ∀ op ∈ f.ops, op.Printable

/-- the variables of the loop after a printed request -/
def Reader.take (env : Env) (r : Reader) (op : TraceOp) : Reader :=
  match op.type with
  | .free => { r with index := op.index, ops := r.ops ++ [{ op with size := env.sizes r.ops.length }] }
  | _ => ⟨op.index, toSize op.size, max r.maxIndex op.index, r.ops ++ [op]⟩

/-- the requests as they are stored: the `size` of a `FREE` is what was in memory -/
def TraceFile.stored (env : Env) (f : TraceFile) : List TraceOp :=
  f.ops.mapIdx fun i op => if op.type = .free then { op with size := env.sizes i } else op

/-- the largest id that is allocated or reallocated -/
def TraceFile.maxIndex (f : TraceFile) : Nat :=
  ((f.ops.filter fun op => op.type ≠ .free).map TraceOp.index).foldl max 0

/-- what becomes of a printed trace, by its counts -/
def TraceFile.outcome (env : Env) (f : TraceFile) : Except Stop TraceFile :=
  if f.room < f.ops.length ∨ f.numIds = -2 ^ 31 then .error .undefined
  else if f.maxIndex ≠ toSize (f.numIds - 1) then
    .error (.assertion "max_index == trace->num_ids - 1")
  else if toSize f.numOps ≠ f.ops.length then .error (.assertion "trace->num_ops == op_index")
  else .ok { f with ops := f.stored env }

section
variable {env : Env} {path : String} {room fuel : Nat} {r : Reader} {s : List Char}
  {old i : Int} {n : Nat} {ws : List (List Char)} {op : TraceOp} {ops : List TraceOp}

lemma scanInt_printed (h : words s = decimal i :: ws) (hi : FitsInt i) :
    ∃ t, scanInt old s = .ok (i, t) ∧ words t = ws := by
  obtain ⟨t, h1, -, h2⟩ := number_decimal h
  refine ⟨t, ?_, h2⟩
  unfold scanInt
  rw [h1]
  exact if_pos hi

/-- a number in 32 bits is read with its sign lost, and the text behind is no longer in the word -/
lemma scanUnsigned_printed (h : words s = decimal i :: ws) (hi : i.natAbs < 2 ^ 32) :
    ∃ t, scanUnsigned s = .ok (some (toSize i), t) ∧ Apart t ∧ words t = ws := by
  obtain ⟨t, h1, ht, h2⟩ := number_decimal h
  refine ⟨t, ?_, ht, h2⟩
  unfold scanUnsigned
  rw [h1]
  exact if_pos hi

lemma toSize_natCast (h : n < 2 ^ 32) : toSize (n : Int) = n := by
  unfold toSize
  omega

lemma toInt_toSize (h : FitsInt i) : toInt (toSize i) = i := by
  unfold FitsInt at h
  unfold toInt toSize
  split
  · omega
  · omega

lemma scanTwo_printed (ho : op.Printable)
    (h : words s = decimal op.index :: decimal op.size :: ws) : ∃ t, scanTwo r s =
      .ok ({ r with index := op.index, size := toSize op.size }, t) ∧ words t = ws := by
  obtain ⟨h1, h2⟩ := ho
  unfold FitsInt at h2
  obtain ⟨t, h3, -, h4⟩ := scanUnsigned_printed h (by omega)
  obtain ⟨u, h5, -, h6⟩ := scanUnsigned_printed h4 (by omega)
  refine ⟨u, bind_eq_ok.mpr ⟨_, h3, bind_eq_ok.mpr ⟨_, h5, ?_⟩⟩, h6⟩
  rw [toSize_natCast h1]
  rfl

lemma scanOne_printed (h : words s = decimal n :: ws) (hn : n < 2 ^ 32) :
    ∃ t, scanOne r s = .ok ({ r with index := n }, t) ∧ words t = ws := by
  obtain ⟨t, h3, ht, h4⟩ := scanUnsigned_printed h (by omega)
  refine ⟨t, bind_eq_ok.mpr ⟨_, h3, ?_⟩, h4⟩
  show Except.ok ({ r with index := toSize n }, literal 'd' t) = _
  rw [toSize_natCast hn, literal_apart (by decide) ht]

lemma push_eq : r.push room op =
    if r.ops.length < room then .ok { r with ops := r.ops ++ [op] } else .error .undefined := rfl

lemma maximum_eq : r.maximum = { r with maxIndex := max r.maxIndex r.index } := by
  unfold Reader.maximum
  have : (if r.index > r.maxIndex then r.index else r.maxIndex) = max r.maxIndex r.index := by
    split <;> omega
  rw [this]

lemma readSized_printed {type : OpType} (ht : op.type = type) (hf : type ≠ .free)
    (h : words s = op.numbers ++ ws) (ho : op.Printable) : ∃ t, words t = ws ∧
      readSized room type r s =
        if r.ops.length < room then .ok (r.take env op, t) else .error .undefined := by
  obtain ⟨type', index, size⟩ := op
  obtain rfl : type' = type := ht
  have hwords : words s = decimal index :: decimal size :: ws := by
    cases type' with
    | free => exact absurd rfl hf
    | alloc => exact h
    | realloc => exact h
  have htake : r.take env ⟨type', index, size⟩ =
      ⟨index, toSize size, max r.maxIndex index, r.ops ++ [⟨type', index, size⟩]⟩ := by
    cases type' with
    | free => exact absurd rfl hf
    | alloc => rfl
    | realloc => rfl
  obtain ⟨t, h1, h2⟩ := scanTwo_printed (r := r) ho hwords
  refine ⟨t, h2, ?_⟩
  unfold readSized
  rw [h1, htake]
  show (Reader.push _ room ⟨type', index, toInt (toSize size)⟩ >>= fun r => pure (r.maximum, t)) = _
  rw [push_eq, toInt_toSize ho.2]
  by_cases hlt : r.ops.length < room
  · rw [if_pos hlt, if_pos hlt]
    show Except.ok (Reader.maximum _, t) = _
    rw [maximum_eq]
  · rw [if_neg hlt, if_neg hlt]
    rfl

/-- **One round on a printed request** stores it when there is room. -/
lemma readOp_printed (h : words s = op.numbers ++ ws) (ho : op.Printable) : ∃ t, words t = ws ∧
    readOp env path room [op.type.letter] r s =
      if r.ops.length < room then .ok (r.take env op, t) else .error .undefined := by
  obtain ⟨type, index, size⟩ := op
  cases type with
  | alloc => exact readSized_printed rfl (by simp) h ho
  | realloc => exact readSized_printed rfl (by simp) h ho
  | free =>
    obtain ⟨t, h1, h2⟩ := scanOne_printed (r := r) (show words s = decimal index :: ws from h) ho.1
    refine ⟨t, h2, ?_⟩
    show readFree env room r s = _
    unfold readFree
    rw [h1]
    show (Reader.push _ room ⟨.free, index, env.sizes r.ops.length⟩ >>= fun r => pure (r, t)) = _
    rw [push_eq]
    by_cases hlt : r.ops.length < room
    · rw [if_pos hlt, if_pos hlt]
      rfl
    · rw [if_neg hlt, if_neg hlt]
      rfl

lemma take_length : (r.take env op).ops.length = r.ops.length + 1 := by
  obtain ⟨type, index, size⟩ := op
  cases type <;> exact List.length_append

/-- **The loop on printed requests** takes them all, or runs out of room. -/
lemma readOps_printed (hf : s.length < fuel) (h : words s = ops.flatMap TraceOp.words)
    (ho : ∀ op ∈ ops, op.Printable) (hroom : r.ops.length ≤ room) :
    readOps env path room fuel r s =
      if r.ops.length + ops.length ≤ room then .ok (ops.foldl (Reader.take env) r)
      else .error .undefined := by
  -- induction on the requests; each takes one round
  induction ops generalizing r s fuel with
  | nil =>
    cases fuel with
    | zero => exact absurd hf (Nat.not_lt_zero _)
    | succ fuel =>
      unfold readOps
      rw [word_nil h]
      exact (if_pos hroom).symm
  | cons op ops ih =>
    cases fuel with
    | zero => exact absurd hf (Nat.not_lt_zero _)
    | succ fuel =>
      rw [List.flatMap_cons] at h
      obtain ⟨t, h1, h2, h3⟩ := word_cons (show words s = [op.type.letter] :: (op.numbers ++ _) from h)
      have hone : ∃ u, words u = ops.flatMap TraceOp.words ∧
          readOp env path room [op.type.letter] r t =
            if r.ops.length < room then .ok (r.take env op, u) else .error .undefined :=
        readOp_printed h2 (ho op List.mem_cons_self)
      obtain ⟨u, h4, h5⟩ := hone
      unfold readOps
      rw [h1]
      have hshort : ¬ MAXLINE ≤ [op.type.letter].length := by
        show ¬ MAXLINE ≤ 1
        decide
      simp only [if_neg hshort]
      rw [h5]
      by_cases hlt : r.ops.length < room
      · rw [if_pos hlt] at h5 ⊢
        have h6 := readOp_length h5
        have hlen : (r.take env op).ops.length = r.ops.length + 1 := take_length
        have h7 := ih (r := r.take env op) (show u.length < fuel by omega) h4
          (fun q hq => ho q (List.mem_cons_of_mem _ hq)) (by omega)
        show readOps env path room fuel (r.take env op) u = _
        rw [h7, hlen, List.length_cons, List.foldl_cons, Nat.add_right_comm, Nat.add_assoc]
      · rw [if_neg hlt, if_neg (by rw [List.length_cons]; omega)]
        rfl

lemma take_maxIndex : (ops.foldl (Reader.take env) r).maxIndex =
    ((ops.filter fun op => op.type ≠ .free).map TraceOp.index).foldl max r.maxIndex := by
  induction ops generalizing r with
  | nil => rfl
  | cons op ops ih =>
    rw [List.foldl_cons, ih]
    obtain ⟨type, index, size⟩ := op
    cases type <;> rfl

lemma take_ops : (ops.foldl (Reader.take env) r).ops = r.ops ++ ops.mapIdx fun i op =>
    if op.type = .free then { op with size := env.sizes (r.ops.length + i) } else op := by
  induction ops generalizing r with
  | nil => exact (List.append_nil _).symm
  | cons op ops ih =>
    have hidx : ∀ i, (r.take env op).ops.length + i = r.ops.length + (i + 1) := fun i => by
      rw [take_length]
      omega
    have hfirst : (r.take env op).ops = r.ops ++
        [if op.type = .free then { op with size := env.sizes (r.ops.length + 0) } else op] := by
      obtain ⟨type, index, size⟩ := op
      cases type <;> rfl
    rw [List.foldl_cons, ih, List.mapIdx_cons, List.append_cons, ← hfirst]
    simp only [hidx]

variable {f : TraceFile} {text : List Char} {tracedir filename : String}

lemma readHeader_printed {a b c d : Int} (h : words s = decimal a :: decimal b :: decimal c ::
    decimal d :: ws) (ha : FitsInt a) (hb : FitsInt b) (hc : FitsInt c) (hd : FitsInt d) :
    ∃ t, readHeader env s = .ok (⟨a, b, c, d, []⟩, t) ∧ words t = ws := by
  obtain ⟨t, h1, h2⟩ := scanInt_printed h ha
  obtain ⟨u, h3, h4⟩ := scanInt_printed h2 hb
  obtain ⟨v, h5, h6⟩ := scanInt_printed h4 hc
  obtain ⟨w, h7, h8⟩ := scanInt_printed h6 hd
  exact ⟨w, bind_eq_ok.mpr ⟨_, h1, bind_eq_ok.mpr ⟨_, h3, bind_eq_ok.mpr ⟨_, h5,
    bind_eq_ok.mpr ⟨_, h7, rfl⟩⟩⟩⟩, h8⟩

lemma checkCounts_printed (h : f.ops.length ≤ f.room) :
    checkCounts f (f.ops.foldl (Reader.take env) ⟨0, env.size, 0, []⟩) = f.outcome env := by
  have h1 : (f.ops.foldl (Reader.take env) ⟨0, env.size, 0, []⟩).maxIndex = f.maxIndex :=
    take_maxIndex
  have h2 : (f.ops.foldl (Reader.take env) ⟨0, env.size, 0, []⟩).ops = f.stored env := by
    rw [take_ops]
    simp only [List.length_nil, Nat.zero_add]
    rfl
  have h3 : (f.stored env).length = f.ops.length := List.length_mapIdx
  unfold checkCounts TraceFile.outcome
  rw [h1, h2, h3]
  by_cases hmin : f.numIds = -2 ^ 31
  · rw [if_pos hmin, if_pos (Or.inr hmin)]
  · have hno : ¬ (f.room < f.ops.length ∨ f.numIds = -2 ^ 31) := by omega
    rw [if_neg hmin, if_neg hno]

lemma readText_printed (henv : ∀ k n, env.gets k n = true) (hf : f.Printable)
    (h : words text = f.words) : readText env path text = f.outcome env := by
  have hheader : ∃ t, readHeader env text = .ok ({ f with ops := [] }, t) ∧
      words t = f.ops.flatMap TraceOp.words :=
    readHeader_printed h hf.suggHeapsize hf.numIds hf.numOps hf.weight
  obtain ⟨t, h1, h2⟩ := hheader
  have hlen := (readHeader_spec h1).1
  have h3 : readOps env path f.room (text.length + 1) ⟨0, env.size, 0, []⟩ t = _ :=
    readOps_printed (Nat.lt_succ_of_le hlen) h2 hf.ops (Nat.zero_le _)
  have h4 : readText env path text =
      (readOps env path f.room (text.length + 1) ⟨0, env.size, 0, []⟩ t >>= checkCounts f) := by
    unfold readText
    rw [h1]
    show (if _ then _ else if _ then _ else if _ then _ else _) = _
    rw [if_neg (by simp [henv]), if_neg (by simp [henv]), if_neg (by simp [henv])]
    rfl
  have h5 : (⟨0, env.size, 0, []⟩ : Reader).ops.length + f.ops.length = f.ops.length := Nat.zero_add _
  rw [h4, h3, h5]
  by_cases hroom : f.ops.length ≤ f.room
  · rw [if_pos hroom]
    exact checkCounts_printed hroom
  · rw [if_neg hroom]
    exact (if_pos (Or.inl (Nat.not_le.mp hroom))).symm

end

end SegList
