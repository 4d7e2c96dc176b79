import ObjectCache.Client.Basic
import ObjectCache.Proofs.Cache.Entries
import ObjectCache.Proofs.Cache.Residence
import ObjectCache.Proofs.Client.ReadPlan
import ObjectCache.Proofs.Text.Pieces

namespace ObjectCache

/-- The bucket does not contain the mark that ends it in the path of an object. -/
def ObjectName.IsPlain (o : ObjectName) : Prop := '/' ∉ o.bucket.toList

theorem ObjectName.eq_of_path_eq {o p : ObjectName} (ho : o.IsPlain) (hp : p.IsPlain)
    (h : o.path = p.path) : o = p := by
  have hl := congrArg String.toList h
  simp only [ObjectName.path, String.toList_append, List.append_assoc] at hl
  obtain ⟨hb, hk⟩ := Text.eq_of_append_cons_eq ho hp hl
  cases o
  cases p
  simp_all [String.toList_inj]

namespace Client

structure Facts where
  block : BlockKey → ByteArray → Prop
  head : ObjectName → HeadEntry → Prop
  listing : ListingName → ListingEntry → Prop

structure Holds (F : Facts) (c : Client) : Prop where
  block : ∀ b ∈ c.blocks.blocks, F.block b.key b.data
  head : ∀ path e, c.metadata.heads.get? path = some e →
    ∃ o, o.IsPlain ∧ o.path = path ∧ F.head o e
  listing : ∀ name e, c.metadata.listings.get? name = some e → F.listing name e

structure Within (c d : Client) : Prop where
  blocks : c.blocks.Within d.blocks
  metadata : c.metadata.Within d.metadata

variable {c d e : Client} {F G : Facts}

theorem Within.refl (c : Client) : c.Within c := ⟨.refl _, .refl _⟩

theorem Within.trans (h : c.Within d) (k : d.Within e) : c.Within e :=
  ⟨h.blocks.trans k.blocks, h.metadata.trans k.metadata⟩

theorem Holds.of_within (h : d.Holds F) (k : c.Within d) : c.Holds F :=
  ⟨fun b hb => h.block b (k.blocks.mem b hb),
    fun path x hx => h.head path x (k.metadata.heads path x hx),
    fun name x hx => h.listing name x (k.metadata.listings name x hx)⟩

theorem Holds.mono (h : c.Holds F) (hblock : ∀ key data, F.block key data → G.block key data)
    (hhead : ∀ o x, F.head o x → G.head o x)
    (hlisting : ∀ name x, F.listing name x → G.listing name x) : c.Holds G := by
  refine ⟨fun b hb => hblock _ _ (h.block b hb), ?_, fun n x hx => hlisting _ _ (h.listing n x hx)⟩
  intro path x hx
  obtain ⟨o, ho, hp, hf⟩ := h.head path x hx
  exact ⟨o, ho, hp, hhead o x hf⟩

theorem Holds.of_getHead (h : c.Holds F) {now : Time.Millis} {o : ObjectName} {n : UInt64}
    (ho : o.IsPlain) (hg : (c.metadata.getHead now o).1 = some n) :
    ∃ x, F.head o x ∧ x.size = n ∧ now < x.expires := by
  obtain ⟨x, hx, hn, hlt⟩ := MetadataCache.entry_of_getHead hg
  obtain ⟨p, hp, hpath, hf⟩ := h.head _ x hx
  rw [ObjectName.eq_of_path_eq hp ho hpath] at hf
  exact ⟨x, hf, hn, hlt⟩

theorem Holds.of_getListing (h : c.Holds F) {now : Time.Millis} {name : ListingName}
    {objects : List ObjectSummary} (hg : (c.metadata.getListing now name).1 = some objects) :
    ∃ x, F.listing name x ∧ x.objects = objects ∧ now < x.expires := by
  obtain ⟨x, hx, hn, hlt⟩ := MetadataCache.entry_of_getListing hg
  exact ⟨x, h.listing name x hx, hn, hlt⟩

theorem Holds.of_lookUp (h : c.Holds F) {r : Reading} {block : ByteArray}
    (hl : (c.lookUp r).1 = some block) : F.block r.key block :=
  h.block _ (BlockCache.mem_of_get hl)

theorem within_lookUp (c : Client) (r : Reading) : (c.lookUp r).2.Within c :=
  ⟨BlockCache.within_get _ _, .refl _⟩

theorem Holds.storeHead (h : c.Holds F) {o : ObjectName} {size : UInt64} {expires : Time.Millis}
    (ho : o.IsPlain) (hf : F.head o ⟨size, expires⟩) :
    Holds F { c with metadata := c.metadata.storeHead o size expires } := by
  refine ⟨h.block, ?_, h.listing⟩
  intro path x hx
  simp only [MetadataCache.storeHead, Table.get?_insert] at hx
  split at hx
  · rename_i hpath
    cases hx
    exact ⟨o, ho, hpath.symm, hf⟩
  · exact h.head path x hx

theorem Holds.storeListing (h : c.Holds F) {name : ListingName} {objects : List ObjectSummary}
    {expires : Time.Millis} (hf : F.listing name ⟨objects, expires⟩) :
    Holds F { c with metadata := c.metadata.storeListing name objects expires } := by
  refine ⟨h.block, h.head, ?_⟩
  intro n x hx
  simp only [MetadataCache.storeListing, Table.get?_insert] at hx
  split at hx
  · rename_i hn
    cases hx
    rw [hn]
    exact hf
  · exact h.listing n x hx

theorem Holds.putBlock (h : c.Holds F) {key : BlockKey} {data : ByteArray}
    (hf : F.block key data) : Holds F { c with blocks := (c.blocks.put key data).1 } := by
  refine ⟨?_, h.head, h.listing⟩
  intro b hb
  rcases BlockCache.mem_of_mem_put hb with hb | rfl
  · exact h.block b hb
  · exact hf

def Facts.besides (F : Facts) (o : ObjectName) : Facts where
  block key data := F.block key data ∧ key.object ≠ o
  head p x := F.head p x ∧ p ≠ o
  listing name x := F.listing name x ∧ name.bucket ≠ o.bucket

theorem Holds.invalidate (h : c.Holds F) (o : ObjectName) :
    (c.invalidate o).1.Holds (F.besides o) := by
  refine ⟨?_, ?_, ?_⟩
  · intro b hb
    obtain ⟨hb, hne⟩ := BlockCache.mem_invalidate.1 hb
    exact ⟨h.block b hb, hne⟩
  · intro path x hx
    change (c.metadata.invalidate o).1.heads.get? path = some x at hx
    rw [MetadataCache.heads_invalidate] at hx
    split at hx
    · simp at hx
    · rename_i hpath
      obtain ⟨p, hp, rfl, hf⟩ := h.head path x hx
      exact ⟨p, hp, rfl, hf, fun hpo => hpath (by rw [hpo])⟩
  · intro name x hx
    obtain ⟨hx, hne⟩ := MetadataCache.listings_of_invalidate hx
    exact ⟨h.listing name x hx, hne⟩

end Client

end ObjectCache
