import Aimsgui.Lib.Links
import Mathlib.Data.List.Perm.Subperm

/-!
# The z-order of a window manager

The clients that are on the screen are linked by their `znext` fields, front first.
Two libraries keep this list: `Wmsrv`, and `Xwmsrv`, a copy of it that also keeps a
pointer `bottom` to what should be the last client. The operations are written with the
pointer assignments of the source; `Listed` says which clients a state lists and in
which order, and for each operation one lemma says how it changes that list.
-/

namespace Aimsgui

open Links

/-- A reference to a client's record. -/
abbrev Cid := Nat

/-- The links of the clients. -/
structure Zorder where
  /-- the field `znext` of every client -/
  znext : Cid → Option Cid := fun _ => none
  /-- the client in front -/
  zorder : Option Cid := none
  /-- the client at the end of `zorder` (in `Xwmsrv`) -/
  bottom : Option Cid := none
  /-- the number of client records created so far -/
  refs : Nat := 0

namespace Zorder

/-- The clients that `for(z := top(); z != nil; z = z.znext)` visits. -/
def order (q : Zorder) : List Cid := follow q.znext q.refs q.zorder

/-- `for(z := zorder; z != nil; (prev, z) = (z, z.znext)) if(z == c) break;` -/
def find (q : Zorder) (c : Cid) : Option Cid × Option Cid :=
  locate q.znext c (q.refs + 1) none q.zorder

end Zorder

/-! ## The operations of `Wmsrv` -/

namespace Wmsrv

/-- `Client.top` -/
def top (q : Zorder) (c : Cid) : Zorder :=
  if q.zorder = some c then q
  else
    let znext :=
      match (q.find c).1 with
      | some prev => Function.update q.znext prev (q.znext c)
      | none => q.znext
    { q with znext := Function.update znext c q.zorder, zorder := some c }

/-- `Client.bottom`, after its test whether there is anything to do. -/
def sink (q : Zorder) (c : Cid) : Zorder :=
  let prev := (q.find c).1
  let znext :=
    match prev with
    | some prev => Function.update q.znext prev (q.znext c)
    | none => q.znext
  let zorder := if prev = none then q.znext c else q.zorder
  match lastFrom (Function.update znext c none) (q.refs + 1) prev (znext c) with
  | some prev =>
    { q with znext := Function.update (Function.update znext c none) prev (some c)
             zorder := zorder }
  | none => { q with znext := Function.update znext c none, zorder := some c }

/-- `Client.bottom` -/
def bottom (q : Zorder) (c : Cid) : Zorder := if q.znext c = none then q else sink q c

/-- `Client.remove` -/
def remove (q : Zorder) (c : Cid) : Zorder :=
  match q.find c with
  | (_, none) => q
  | (some prev, some z) => { q with znext := Function.update q.znext prev (q.znext z) }
  | (none, some z) => { q with zorder := q.znext z }

end Wmsrv

/-! ## The operations of `Xwmsrv` -/

namespace Xwmsrv

/-- `Client.top`: like that of `Wmsrv`, and an only client is also the last one. -/
def top (q : Zorder) (c : Cid) : Zorder :=
  if q.zorder = some c then q
  else { Wmsrv.top q c with bottom := if q.zorder = none then some c else q.bottom }

/-- `Client.bottom`: like that of `Wmsrv`, but `bottom` decides whether there is anything
to do. -/
def bottom (q : Zorder) (c : Cid) : Zorder :=
  if q.bottom = some c then q else { Wmsrv.sink q c with bottom := some c }

/-- `Client.remove`: like that of `Wmsrv`. When the client in front is removed, `bottom`
becomes the one after it. -/
def remove (q : Zorder) (c : Cid) : Zorder :=
  { Wmsrv.remove q c with
    bottom :=
      match q.find c with
      | (_, none) => q.bottom
      | (some prev, some z) => if q.bottom = some z then some prev else q.bottom
      | (none, some z) => q.znext z }

end Xwmsrv

/-! ## What the links list -/

namespace Zorder

/-- The links list the clients `l`, front first. Clients outside the list have no link,
except those that have left. -/
structure Listed (q : Zorder) (left l : List Cid) : Prop where
  chain : Chain q.znext q.zorder l
  nodup : l.Nodup
  bound : ∀ c ∈ l, c < q.refs
  loose : ∀ c, c ∉ l → c ∉ left → q.znext c = none

variable {q : Zorder} {left l l₁ l₂ : List Cid} {c : Cid}

namespace Listed

theorem length_le (h : Listed q left l) : l.length ≤ q.refs := by
  have hsub : l ⊆ List.range q.refs := fun c hc => List.mem_range.mpr (h.bound c hc)
  have hle := (List.subperm_of_subset h.nodup hsub).length_le
  rwa [List.length_range] at hle

/-- Walking along the links visits the listed clients. -/
theorem order_eq (h : Listed q left l) : q.order = l := h.chain.follow_eq h.length_le

theorem zorder_eq (h : Listed q left l) : q.zorder = l.head? := h.chain.head_eq

/-- `find` goes to the end of the list in vain. -/
theorem find_of_notMem (h : Listed q left l) (hc : c ∉ l) : q.find c = (l.getLast?, none) := by
  rw [find, h.chain.locate_of_notMem hc none (Nat.le_succ_of_le h.length_le), Option.or_none]

/-- `find` stops at the client, and has the one before it. -/
theorem find_of_mem (h : Listed q left (l₁ ++ c :: l₂)) : q.find c = (l₁.getLast?, some c) := by
  have hlen : l₁.length < q.refs + 1 := by
    have hle := h.length_le
    rw [List.length_append] at hle
    exact Nat.lt_succ_of_le (Nat.le_trans (Nat.le_add_right _ _) hle)
  have hc : c ∉ l₁ := by
    intro hm
    exact (List.nodup_append.mp h.nodup).2.2 c hm c List.mem_cons_self rfl
  rw [find, h.chain.locate_of_mem hc none hlen, Option.or_none]

/-- A new client is not listed. -/
theorem opened (h : Listed q left l) : Listed { q with refs := q.refs + 1 } left l :=
  ⟨h.chain, h.nodup, fun c hc => Nat.lt_succ_of_lt (h.bound c hc), h.loose⟩

/-- A listed client has a place in the list. -/
theorem split (hc : c ∈ l) (hnd : l.Nodup) :
    ∃ l₁ l₂, l = l₁ ++ c :: l₂ ∧ c ∉ l₁ ∧ l.erase c = l₁ ++ l₂ := by
  obtain ⟨l₁, l₂, rfl⟩ := List.append_of_mem hc
  have hc₁ : c ∉ l₁ := by
    intro hm
    exact (List.nodup_append.mp hnd).2.2 c hm c List.mem_cons_self rfl
  refine ⟨l₁, l₂, rfl, hc₁, ?_⟩
  rw [List.erase_append_right _ hc₁, List.erase_cons_head]

end Listed

open Listed

/-- The client without the one being moved: its place is closed. -/
theorem unlinked (h : Listed q left l) (hleft : c ∉ left) :
    ∃ znext zorder,
      (match (q.find c).1 with
        | some prev => Function.update q.znext prev (q.znext c)
        | none => q.znext) = znext ∧
      (if (q.find c).1 = none then q.znext c else q.zorder) = zorder ∧
      Chain znext zorder (l.erase c) ∧ znext c = q.znext c ∧
      (∀ a, a ∉ l.erase c → a ≠ c → a ∉ left → znext a = none) := by
  by_cases hm : c ∈ l
  · obtain ⟨l₁, l₂, rfl, hc₁, herase⟩ := split hm h.nodup
    rw [h.find_of_mem, herase]
    rcases List.eq_nil_or_concat' l₁ with rfl | ⟨l₁, p, rfl⟩
    · -- the client is in front
      refine ⟨q.znext, q.znext c, rfl, rfl, ?_, rfl, ?_⟩
      · exact h.chain.tail
      · intro a ha hac
        exact h.loose a fun hm' => ha ((List.mem_cons.mp hm').resolve_left hac)
    · have hnd := h.nodup
      have hchain := h.chain
      simp only [List.append_assoc, List.singleton_append] at hnd hchain ⊢
      have hpc : p ≠ c := fun hp => hc₁ (hp ▸ List.mem_append_right _ (List.mem_singleton_self p))
      refine ⟨Function.update q.znext p (q.znext c), q.zorder, ?_, ?_, hchain.skip hnd, ?_, ?_⟩
      · rw [List.getLast?_concat]
      · rw [List.getLast?_concat]
        rfl
      · exact Function.update_of_ne hpc.symm _ _
      · intro a ha hac hal
        have hap : a ≠ p := fun hp => ha (by simp [hp])
        rw [Function.update_of_ne hap]
        refine h.loose a ?_ hal
        intro hm'
        simp only [List.append_assoc, List.singleton_append, List.mem_append, List.mem_cons]
          at hm' ha
        rcases hm' with hm' | hm' | hm' | hm'
        · exact ha (Or.inl hm')
        · exact hap hm'
        · exact hac hm'
        · exact ha (Or.inr (Or.inr hm'))
  · rw [h.find_of_notMem hm, List.erase_of_not_mem hm]
    have hnext : q.znext c = none := h.loose c hm hleft
    rcases List.eq_nil_or_concat' l with rfl | ⟨l, p, rfl⟩
    · refine ⟨q.znext, none, rfl, by simp [hnext], Chain.nil, rfl, ?_⟩
      intro a ha _ hal
      exact h.loose a ha hal
    · have hpc : p ≠ c := fun hp => hm (hp ▸ List.mem_append_right _ (List.mem_singleton_self p))
      refine ⟨Function.update q.znext p none, q.zorder, ?_, ?_, h.chain.update_last, ?_, ?_⟩
      · rw [List.getLast?_concat, hnext]
      · rw [List.getLast?_concat]
        rfl
      · exact Function.update_of_ne hpc.symm _ _
      · intro a ha _ hal
        have hap : a ≠ p := fun hp => ha (by simp [hp])
        rw [Function.update_of_ne hap]
        exact h.loose a ha hal

/-- What is before the client and what is after it. -/
theorem find_split (h : Listed q left l) (hleft : c ∉ left) :
    ∃ l₁ l₂, l.erase c = l₁ ++ l₂ ∧ (q.find c).1 = l₁.getLast? ∧ q.znext c = l₂.head? := by
  by_cases hm : c ∈ l
  · obtain ⟨l₁, l₂, rfl, -, herase⟩ := split hm h.nodup
    exact ⟨l₁, l₂, herase, by rw [h.find_of_mem], h.chain.next_eq⟩
  · refine ⟨l, [], ?_, by rw [h.find_of_notMem hm], h.loose c hm hleft⟩
    rw [List.erase_of_not_mem hm, List.append_nil]

theorem not_mem_erase (h : l.Nodup) : c ∉ l.erase c := fun hm => (h.mem_erase_iff.mp hm).1 rfl

theorem bound_erase (h : Listed q left l) : ∀ a ∈ l.erase c, a < q.refs :=
  fun a ha => h.bound a (List.mem_of_mem_erase ha)

/-- `Client.top` puts the client first. -/
theorem Listed.top (h : Listed q left l) (hc : c < q.refs) (hleft : c ∉ left) :
    Listed (Wmsrv.top q c) left (c :: l.erase c) := by
  rw [Wmsrv.top]
  split
  · rename_i hz
    cases l with
    | nil => cases hz.symm.trans h.zorder_eq
    | cons a l =>
      obtain rfl : c = a := Option.some.inj (hz.symm.trans h.zorder_eq)
      rw [List.erase_cons_head]
      exact h
  · rename_i hz
    obtain ⟨znext, zorder, hznext, -, hchain, -, hloose⟩ := unlinked h hleft
    have hzorder : zorder = q.zorder := by
      rw [hchain.head_eq, h.zorder_eq]
      cases l with
      | nil => rfl
      | cons a l =>
        have hac : a ≠ c := by
          rintro rfl
          exact hz h.zorder_eq
        rw [List.erase_cons_tail (by simpa using hac), List.head?_cons, List.head?_cons]
    rw [hznext]
    refine ⟨?_, ?_, ?_, ?_⟩
    · exact hzorder ▸ hchain.push (not_mem_erase h.nodup)
    · exact List.nodup_cons.mpr ⟨not_mem_erase h.nodup, h.nodup.erase c⟩
    · intro a ha
      rcases List.mem_cons.mp ha with rfl | ha
      · exact hc
      · exact bound_erase h a ha
    · intro a ha hal
      obtain ⟨hac, ha⟩ := not_or.mp fun hm => ha (List.mem_cons.mpr hm)
      change Function.update znext c q.zorder a = none
      rw [Function.update_of_ne hac]
      exact hloose a ha hac hal

/-- The walk to the end of the links, after the client has been unlinked, ends at the last
of the other clients. -/
theorem lastFrom_unlinked (h : Listed q left l) (hleft : c ∉ left) {znext : Cid → Option Cid}
    {zorder : Option Cid} (hchain : Chain znext zorder (l.erase c)) :
    lastFrom (Function.update znext c none) (q.refs + 1) (q.find c).1 (q.znext c) =
      (l.erase c).getLast? := by
  obtain ⟨l₁, l₂, herase, hprev, hnext⟩ := find_split h hleft
  have hc := not_mem_erase (c := c) h.nodup
  rw [herase] at hchain hc
  have hlen : l₂.length ≤ q.refs + 1 := by
    have hle : (l.erase c).length ≤ l.length := List.length_erase_le
    rw [herase, List.length_append] at hle
    exact Nat.le_succ_of_le
      (Nat.le_trans (Nat.le_trans (Nat.le_add_left _ _) hle) h.length_le)
  have hchain₂ : Chain (Function.update znext c none) (q.znext c) l₂ := by
    rw [hnext]
    cases l₂ with
    | nil => exact Chain.nil
    | cons b l₂ => exact hchain.suffix.update_of_notMem (fun hm => hc (List.mem_append_right _ hm)) _
  rw [hchain₂.lastFrom_eq _ hlen, hprev, herase, List.getLast?_append]

/-- `Client.bottom` puts the client last. -/
theorem Listed.sink (h : Listed q left l) (hc : c < q.refs) (hleft : c ∉ left) :
    Listed (Wmsrv.sink q c) left (l.erase c ++ [c]) := by
  obtain ⟨znext, zorder, hznext, hzorder, hchain, hnextc, hloose⟩ := unlinked h hleft
  have hlast := lastFrom_unlinked h hleft hchain
  have hnot := not_mem_erase (c := c) h.nodup
  simp only [Wmsrv.sink]
  rw [hznext, hzorder, hnextc, hlast]
  have hnd : (l.erase c ++ [c]).Nodup := by
    refine List.nodup_append.mpr ⟨h.nodup.erase c, List.nodup_singleton c, ?_⟩
    rintro a ha b hb rfl
    obtain rfl := List.mem_singleton.mp hb
    exact hnot ha
  have hbound : ∀ a ∈ l.erase c ++ [c], a < q.refs := by
    intro a ha
    rcases List.mem_append.mp ha with ha | ha
    · exact bound_erase h a ha
    · exact List.mem_singleton.mp ha ▸ hc
  rcases List.eq_nil_or_concat' (l.erase c) with hnil | ⟨l', p, herase⟩
  · rw [hnil] at hloose hnd hbound ⊢
    refine ⟨?_, hnd, hbound, ?_⟩
    · refine Chain.cons ?_
      change Chain _ (Function.update znext c none c) []
      rw [Function.update_self]
      exact Chain.nil
    · intro a ha hal
      have hac : a ≠ c := fun h' => ha (List.mem_singleton.mpr h')
      change Function.update znext c none a = none
      rw [Function.update_of_ne hac]
      exact hloose a List.not_mem_nil hac hal
  · rw [herase] at hchain hloose hnd hbound hnot ⊢
    rw [List.getLast?_concat]
    have hattach := (hchain.update_of_notMem hnot none).attach (List.nodup_append.mp hnd).1 hnot
      (Function.update_self ..)
    refine ⟨?_, hnd, hbound, ?_⟩
    · rw [List.append_assoc]
      exact hattach
    · intro a ha hal
      obtain ⟨ha, hac⟩ := not_or.mp fun hm => ha (List.mem_append.mpr hm)
      have hap : a ≠ p := fun h' => ha (List.mem_append_right _ (List.mem_singleton.mpr h'))
      have hac : a ≠ c := fun h' => hac (List.mem_singleton.mpr h')
      change Function.update (Function.update znext c none) p (some c) a = none
      rw [Function.update_of_ne hap, Function.update_of_ne hac]
      exact hloose a ha hac hal

/-- `Client.remove` takes the client out, and it is gone. -/
theorem Listed.remove (h : Listed q left l) (hleft : c ∉ left) :
    Listed (Wmsrv.remove q c) (c :: left) (l.erase c) := by
  by_cases hm : c ∈ l
  · obtain ⟨l₁, l₂, rfl, -, -⟩ := split hm h.nodup
    have hfind := h.find_of_mem
    obtain ⟨znext, zorder, hznext, hzorder, hchain, -, hloose⟩ := unlinked h hleft
    have heq : Wmsrv.remove q c = { q with znext := znext, zorder := zorder } := by
      rw [← hznext, ← hzorder, Wmsrv.remove, hfind]
      cases l₁.getLast? <;> rfl
    rw [heq]
    refine ⟨hchain, h.nodup.erase c, fun a ha => bound_erase h a ha, ?_⟩
    intro a ha hal
    obtain ⟨hac, hal⟩ := not_or.mp fun hm' => hal (List.mem_cons.mpr hm')
    exact hloose a ha hac hal
  · rw [Wmsrv.remove, h.find_of_notMem hm, List.erase_of_not_mem hm]
    refine ⟨h.chain, h.nodup, h.bound, ?_⟩
    intro a ha hal
    exact h.loose a ha fun hm' => hal (List.mem_cons_of_mem _ hm')

/-! ## The same for `Xwmsrv` -/

/-- The list does not depend on `bottom`. -/
theorem Listed.with_bottom (h : Listed q left l) (b : Option Cid) :
    Listed { q with bottom := b } left l :=
  ⟨h.chain, h.nodup, h.bound, h.loose⟩

theorem Listed.xtop (h : Listed q left l) (hc : c < q.refs) (hleft : c ∉ left) :
    Listed (Xwmsrv.top q c) left (c :: l.erase c) := by
  have htop := h.top hc hleft
  rw [Xwmsrv.top]
  split
  · rename_i hz
    rwa [Wmsrv.top, if_pos hz] at htop
  · exact htop.with_bottom _

/-- A client that `bottom` names already stays where it is. -/
theorem Listed.xsink (h : Listed q left l) (hc : c < q.refs) (hleft : c ∉ left) :
    Listed (Xwmsrv.bottom q c) left (if q.bottom = some c then l else l.erase c ++ [c]) := by
  rw [Xwmsrv.bottom]
  split
  · exact h
  · exact (h.sink hc hleft).with_bottom _

/-- The client is gone from the links, wherever `bottom` points. -/
theorem Listed.xremove (h : Listed q left l) (hleft : c ∉ left) :
    Listed (Xwmsrv.remove q c) (c :: left) (l.erase c) := (h.remove hleft).with_bottom _

/-- The pointer after `Client.top`. -/
theorem xtop_bottom (h : Listed q left l) :
    (Xwmsrv.top q c).bottom = if l = [] then some c else q.bottom := by
  rw [Xwmsrv.top, h.zorder_eq]
  cases l with
  | nil => rfl
  | cons a l =>
    rw [if_neg (List.cons_ne_nil a l)]
    split
    · rfl
    · rfl

theorem xsink_bottom : (Xwmsrv.bottom q c).bottom = some c := by
  rw [Xwmsrv.bottom]
  split
  · assumption
  · rfl

/-! ## Clients that stay -/

/-- The links list `l`, and none of its clients has left. -/
structure Standing (q : Zorder) (left l : List Cid) : Prop where
  listed : Listed q left l
  present : ∀ c ∈ l, c ∉ left

namespace Standing

/-- No clients, to begin with. -/
theorem empty : Standing {} [] [] where
  listed := ⟨.nil, List.nodup_nil, fun _ h => absurd h List.not_mem_nil, fun _ _ _ => rfl⟩
  present := fun _ h => absurd h List.not_mem_nil

theorem opened (h : Standing q left l) : Standing { q with refs := q.refs + 1 } left l :=
  ⟨h.listed.opened, h.present⟩

theorem top (h : Standing q left l) (hc : c < q.refs) (hleft : c ∉ left) :
    Standing (Wmsrv.top q c) left (c :: l.erase c) := by
  refine ⟨h.listed.top hc hleft, ?_⟩
  intro a ha
  rcases List.mem_cons.mp ha with rfl | ha
  · exact hleft
  · exact h.present a (List.mem_of_mem_erase ha)

theorem sink (h : Standing q left l) (hc : c < q.refs) (hleft : c ∉ left) :
    Standing (Wmsrv.sink q c) left (l.erase c ++ [c]) := by
  refine ⟨h.listed.sink hc hleft, ?_⟩
  intro a ha
  rcases List.mem_append.mp ha with ha | ha
  · exact h.present a (List.mem_of_mem_erase ha)
  · exact List.mem_singleton.mp ha ▸ hleft

theorem remove (h : Standing q left l) (hleft : c ∉ left) :
    Standing (Wmsrv.remove q c) (c :: left) (l.erase c) := by
  refine ⟨h.listed.remove hleft, ?_⟩
  intro a ha hal
  rcases List.mem_cons.mp hal with rfl | hal
  · exact (h.listed.nodup.mem_erase_iff.mp ha).1 rfl
  · exact h.present a (List.mem_of_mem_erase ha) hal

theorem xtop (h : Standing q left l) (hc : c < q.refs) (hleft : c ∉ left) :
    Standing (Xwmsrv.top q c) left (c :: l.erase c) :=
  ⟨h.listed.xtop hc hleft, (h.top hc hleft).present⟩

theorem xsink (h : Standing q left l) (hc : c < q.refs) (hleft : c ∉ left) :
    Standing (Xwmsrv.bottom q c) left (if q.bottom = some c then l else l.erase c ++ [c]) := by
  refine ⟨h.listed.xsink hc hleft, ?_⟩
  split_ifs
  · exact h.present
  · exact (h.sink hc hleft).present

theorem xremove (h : Standing q left l) (hleft : c ∉ left) :
    Standing (Xwmsrv.remove q c) (c :: left) (l.erase c) :=
  ⟨h.listed.xremove hleft, (h.remove hleft).present⟩

end Standing

/-- If `bottom` is a client, it is one that is listed. -/
def Anchored (q : Zorder) (l : List Cid) : Prop := ∀ b, q.bottom = some b → b ∈ l

namespace Anchored

theorem top (ha : Anchored q l) (h : Listed q left l) :
    Anchored (Xwmsrv.top q c) (c :: l.erase c) := by
  intro b hb
  rw [xtop_bottom h] at hb
  split_ifs at hb
  · exact Option.some.inj hb ▸ List.mem_cons_self
  · by_cases hbc : b = c
    · exact hbc ▸ List.mem_cons_self
    · exact List.mem_cons_of_mem _ ((List.mem_erase_of_ne hbc).mpr (ha b hb))

theorem sink (ha : Anchored q l) :
    Anchored (Xwmsrv.bottom q c) (if q.bottom = some c then l else l.erase c ++ [c]) := by
  intro b hb
  rw [xsink_bottom] at hb
  obtain rfl := Option.some.inj hb
  split_ifs with hq
  · exact ha _ hq
  · exact List.mem_append_right _ (List.mem_singleton_self _)

theorem remove (ha : Anchored q l) (h : Listed q left l) :
    Anchored (Xwmsrv.remove q c) (l.erase c) := by
  by_cases hm : c ∈ l
  · obtain ⟨l₁, l₂, rfl, hc₁, herase⟩ := Listed.split hm h.nodup
    have hnext : q.znext c = l₂.head? := h.chain.next_eq
    rw [herase]
    intro b hb
    rw [Xwmsrv.remove, h.find_of_mem] at hb
    rcases List.eq_nil_or_concat' l₁ with rfl | ⟨l₁, p, rfl⟩
    · exact List.mem_of_mem_head? (hnext ▸ hb)
    · simp only [List.getLast?_concat] at hb
      split_ifs at hb with hq
      · obtain rfl := Option.some.inj hb
        exact List.mem_append_left _ (List.mem_append_right _ (List.mem_singleton_self _))
      · have hbc : b ≠ c := by
          rintro rfl
          exact hq hb
        have hmem := ha b hb
        rwa [← herase, List.mem_erase_of_ne hbc]
  · intro b hb
    rw [Xwmsrv.remove, h.find_of_notMem hm] at hb
    rw [List.erase_of_not_mem hm]
    exact ha b hb

end Anchored

end Zorder

end Aimsgui
