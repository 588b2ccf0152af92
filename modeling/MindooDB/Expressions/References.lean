import MindooDB.Summary.Updates

/-!
# Expressions/References — what an expression reads

The analyses of `core/expressions/evaluateExpression.ts`, by which a query knows what it needs
before it evaluates anything.  An evaluation reads nothing else of the document, the plaintexts and
the counts than they report (`evaluateExpression_eq_of_reads`).  What they do not report is what the
query itself gives: the values of other columns, the variables in scope, and the metadata.
-/

namespace MindooDB

open List

mutual

/-- The nodes of an expression, in the order of their visits. -/
def walkExpression (expression : MindooDBAppExpression) : List MindooDBAppExpression :=
  match expression with
  | .operation op args part => .operation op args part :: walkArgs args
  | .ifElse condition whenTrue whenFalse =>
    .ifElse condition whenTrue whenFalse ::
      (walkExpression condition ++ (walkExpression whenTrue ++ walkExpression whenFalse))
  | .letIn bindings result =>
    .letIn bindings result :: (walkBindings bindings ++ walkExpression result)
  | .decrypt field (some key) json path => .decrypt field (some key) json path :: walkExpression key
  | expression => [expression]

def walkArgs (args : List MindooDBAppExpression) : List MindooDBAppExpression :=
  match args with
  | [] => []
  | arg :: args => walkExpression arg ++ walkArgs args

def walkBindings (bindings : List (JSString × MindooDBAppExpression)) :
    List MindooDBAppExpression :=
  match bindings with
  | [] => []
  | (_, binding) :: bindings => walkExpression binding ++ walkBindings bindings

end

theorem self_mem_walkExpression (expression : MindooDBAppExpression) :
    expression ∈ walkExpression expression := by
  unfold walkExpression
  split <;> simp

structure DecryptRequest where
  field : JSString
  key : Option MindooDBAppExpression

def VIEW_CONTEXT_OPERATIONS : List ExpressionOperation :=
  [.childCount, .childCategoryCount, .childDocumentCount, .descendantCount,
    .descendantCategoryCount, .descendantDocumentCount, .siblingCount]

def ATTACHMENT_OPERATIONS : List ExpressionOperation :=
  [.attachmentNames, .attachmentLengths, .attachmentCount]

def referencedField? : MindooDBAppExpression → Option JSString
  | .field path => some path
  | .json field _ => some field
  | .operation op _ _ => if op ∈ ATTACHMENT_OPERATIONS then some "_attachments" else none
  | _ => none

def decryptRequest? : MindooDBAppExpression → Option DecryptRequest
  | .decrypt field key _ _ => some ⟨field, key⟩
  | _ => none

def viewContextOperation? : MindooDBAppExpression → Option ExpressionOperation
  | .operation op _ _ => if op ∈ VIEW_CONTEXT_OPERATIONS then some op else none
  | _ => none

/-- What an operation reads beside the document, the plaintexts and the counts. -/
def metadataOf (context : ExpressionEvaluationContext) : MindooDBAppExpression → ColumnValue
  | .origin => .string context.origin
  | .operation .createdAt _ _ => orNull context.createdAt
  | .operation .lastModifiedAt _ _ => orNull context.lastModifiedAt
  | .operation .decryptionKeyId _ _ => orNull context.decryptionKeyId
  | .operation .isWitnessed _ _ => .bool (context.witnessed.getD false)
  | .operation .isAwaitingWitness _ _ => .bool (context.awaitingWitness.getD false)
  | _ => .null

def getReferencedFields (expression : MindooDBAppExpression) : List JSString :=
  ((walkExpression expression).filterMap referencedField?).eraseDups

def collectDecryptRequests (expression : MindooDBAppExpression) : List DecryptRequest :=
  (walkExpression expression).filterMap decryptRequest?

/-- What a program needs of its context. -/
structure ExpressionRequirements where
  needsDecryption : Bool
  needsViewContext : Bool
  viewContextOperations : List ExpressionOperation

def analyzeExpressionRequirements (expression : MindooDBAppExpression) : ExpressionRequirements :=
  let operations := ((walkExpression expression).filterMap viewContextOperation?).eraseDups
  ⟨!(collectDecryptRequests expression).isEmpty, !operations.isEmpty, operations⟩

/-! ## What an evaluation reads -/

variable {env : ExpressionRuntime} {context source : ExpressionEvaluationContext}

/-- A context with all of another one but the values and the variables. -/
def ExpressionEvaluationContext.over (context source : ExpressionEvaluationContext) :
    ExpressionEvaluationContext :=
  { source with values := context.values, vars := context.vars }

/-- **Two contexts that are alike** at these fields, plaintexts and counts. -/
structure ExpressionEvaluationContext.Alike (context source : ExpressionEvaluationContext)
    (fields : List JSString) (requests : List DecryptRequest)
    (operations : List ExpressionOperation) : Prop where
  field : ∀ path ∈ fields,
    getFieldValue (readDoc source.doc) path = getFieldValue (readDoc context.doc) path
  plaintext : ∀ request ∈ requests, source.decrypted.bind (List.lookup request.field)
    = context.decrypted.bind (List.lookup request.field)
  count : ∀ op ∈ operations, source.counts op = context.counts op

/-- Two contexts that are alike where a node reads. -/
structure AlikeAt (context source : ExpressionEvaluationContext) (node : MindooDBAppExpression) :
    Prop extends context.Alike source (referencedField? node).toList (decryptRequest? node).toList
      (viewContextOperation? node).toList where
  metadata : metadataOf source node = metadataOf context node

theorem AlikeAt.withVars {node : MindooDBAppExpression} (h : AlikeAt context source node)
    (vars : List (JSString × Evaluated)) : AlikeAt { context with vars := vars } source node := by
  refine ⟨⟨h.field, h.plaintext, h.count⟩, h.metadata.trans ?_⟩
  cases node with
  | operation op => cases op <;> rfl
  | _ => rfl

/-- The attachments are what stands at `_attachments`. -/
theorem getAttachmentList_eq (doc : ColumnValues) :
    getAttachmentList doc = match (getFieldValue (readDoc doc) "_attachments").value with
      | .array items => items
      | _ => [] := by
  have hsplit : ("_attachments" : JSString).split '.' = [("_attachments" : JSString)] := by
    decide +kernel
  rw [getAttachmentList, getFieldValue, if_neg (by decide), hsplit]
  simp only [readDoc, Evaluated.property, ColumnValue.property?, LinkedMap.get?]
  cases doc.toList.lookup _ with
  | none => rfl
  | some value => cases value <;> rfl

theorem applyOperation_over {op : ExpressionOperation} {part : Option ExpressionDatePart}
    {args : List MindooDBAppExpression} (values : List Evaluated) (position : List ℕ)
    (h : AlikeAt context source (.operation op args part)) :
    applyOperation env op part values position (context.over source)
      = applyOperation env op part values position context := by
  have hattachments (hop : op ∈ ATTACHMENT_OPERATIONS) :
      getAttachmentList source.doc = getAttachmentList context.doc := by
    rw [getAttachmentList_eq, getAttachmentList_eq, h.field _ (by simp [referencedField?, hop])]
  have hcount (hop : op ∈ VIEW_CONTEXT_OPERATIONS) : source.counts op = context.counts op :=
    h.count op (by simp [viewContextOperation?, hop])
  cases op with
  | attachmentNames | attachmentLengths | attachmentCount =>
    simp only [applyOperation, attachmentNames, attachmentLengths, ExpressionEvaluationContext.over,
      hattachments (by decide)]
  | childCount | childCategoryCount | childDocumentCount | descendantCount | descendantCategoryCount
  | descendantDocumentCount | siblingCount =>
    simp only [applyOperation, ExpressionEvaluationContext.over, hcount (by decide)]
  | createdAt | lastModifiedAt | decryptionKeyId | isWitnessed | isAwaitingWitness =>
    exact congrArg Evaluated.of h.metadata
  | _ => rfl

mutual

theorem evaluateExpression_over (expression : MindooDBAppExpression) (position : List ℕ)
    (context : ExpressionEvaluationContext)
    (h : ∀ node ∈ walkExpression expression, AlikeAt context source node) :
    evaluateExpression env expression position (context.over source)
      = evaluateExpression env expression position context := by
  have hself := h expression (self_mem_walkExpression expression)
  cases expression with
  | literal | value | var => rfl
  | origin => exact congrArg Evaluated.of hself.metadata
  | field path =>
    rw [evaluateExpression, evaluateExpression]
    exact hself.field path mem_cons_self
  | operation op args part =>
    rw [walkExpression, forall_mem_cons] at h
    rw [evaluateExpression, evaluateExpression, evaluateArgs_over args 0 position context h.2]
    exact applyOperation_over _ position hself
  | ifElse condition whenTrue whenFalse =>
    rw [walkExpression, forall_mem_cons, forall_mem_append, forall_mem_append] at h
    rw [evaluateExpression, evaluateExpression, evaluateExpression_over condition _ context h.2.1,
      evaluateExpression_over whenTrue _ context h.2.2.1,
      evaluateExpression_over whenFalse _ context h.2.2.2]
  | letIn bindings result =>
    rw [walkExpression, forall_mem_cons, forall_mem_append] at h
    rw [evaluateExpression, evaluateExpression,
      evaluateBindings_over bindings 1 position context h.2.1]
    exact evaluateExpression_over result _ { context with vars := _ } fun node hnode =>
      (h.2.2 node hnode).withVars _
  | decrypt field key json path =>
    simp only [evaluateExpression, ExpressionEvaluationContext.over,
      hself.plaintext ⟨field, key⟩ mem_cons_self]
  | json field path =>
    rw [evaluateExpression, evaluateExpression]
    exact congrArg (parseAndExtract env · path position) (hself.field field mem_cons_self)

theorem evaluateArgs_over (args : List MindooDBAppExpression) (i : ℕ) (position : List ℕ)
    (context : ExpressionEvaluationContext)
    (h : ∀ node ∈ walkArgs args, AlikeAt context source node) :
    evaluateArgs env args i position (context.over source)
      = evaluateArgs env args i position context := by
  cases args with
  | nil => rfl
  | cons arg args =>
    rw [walkArgs, forall_mem_append] at h
    rw [evaluateArgs, evaluateArgs, evaluateExpression_over arg _ context h.1,
      evaluateArgs_over args _ position context h.2]

theorem evaluateBindings_over (bindings : List (JSString × MindooDBAppExpression)) (i : ℕ)
    (position : List ℕ) (context : ExpressionEvaluationContext)
    (h : ∀ node ∈ walkBindings bindings, AlikeAt context source node) :
    evaluateBindings env bindings i position (context.over source)
      = evaluateBindings env bindings i position context := by
  cases bindings with
  | nil => rfl
  | cons binding bindings =>
    rw [walkBindings, forall_mem_append] at h
    rw [evaluateBindings, evaluateBindings, evaluateExpression_over binding.2 _ context h.1]
    exact evaluateBindings_over bindings _ position { context with vars := _ } fun node hnode =>
      (h.2 node hnode).withVars _

end

theorem ExpressionEvaluationContext.Alike.alikeAt {expression node : MindooDBAppExpression}
    (h : context.Alike source (getReferencedFields expression) (collectDecryptRequests expression)
      (analyzeExpressionRequirements expression).viewContextOperations)
    (hnode : node ∈ walkExpression expression)
    (hmetadata : metadataOf source node = metadataOf context node) :
    AlikeAt context source node :=
  ⟨⟨fun path hpath => h.field path (mem_eraseDups.mpr
      (mem_filterMap.mpr ⟨node, hnode, Option.mem_toList.mp hpath⟩)),
    fun request hrequest => h.plaintext request
      (mem_filterMap.mpr ⟨node, hnode, Option.mem_toList.mp hrequest⟩),
    fun op hop => h.count op (mem_eraseDups.mpr
      (mem_filterMap.mpr ⟨node, hnode, Option.mem_toList.mp hop⟩))⟩, hmetadata⟩

/-- **The analyses report all that an evaluation reads** of the document, the plaintexts and the
counts, where the values, the variables and the metadata are the same. -/
theorem evaluateExpression_eq_of_reads (expression : MindooDBAppExpression) (position : List ℕ)
    (hvalues : source.values = context.values) (hvars : source.vars = context.vars)
    (h : context.Alike source (getReferencedFields expression) (collectDecryptRequests expression)
      (analyzeExpressionRequirements expression).viewContextOperations)
    (hmetadata : ∀ node ∈ walkExpression expression,
      metadataOf source node = metadataOf context node) :
    evaluateExpression env expression position source
      = evaluateExpression env expression position context := by
  have hover : context.over source = source := by
    rw [ExpressionEvaluationContext.over, ← hvalues, ← hvars]
  have hreads : evaluateExpression env expression position (context.over source)
      = evaluateExpression env expression position context :=
    evaluateExpression_over expression position context fun node hnode =>
      h.alikeAt hnode (hmetadata node hnode)
  rwa [hover] at hreads

/-- A decrypted field, with a count and the date when the document was made. -/
def summaryLine : MindooDBAppExpression :=
  .letIn [("n", .operation .childCount [] none)]
    (.operation .concat [.decrypt "secret" none false none, .var "n", .value "total",
      .operation .createdAt [] none, .field "status", .origin] none)

/-- What a query knows when it evaluates the line. -/
def lineContext (unread : JSString) : ExpressionEvaluationContext where
  doc := ((∅ : ColumnValues).set "status" (.string "open")).set "text" (.string unread)
  values := [("total", .of (.number 7))]
  origin := "o"
  createdAt := some "2026"
  lastModifiedAt := some unread
  counts op := if op = .childCount then some 3 else some unread.length
  decrypted := some [("secret", .string "s"), ("other", .string unread)]

/-- What is beside the line makes no difference. -/
theorem evaluateExpression_summaryLine : evaluateExpression plainExpressions summaryLine []
      (lineContext "later")
    = evaluateExpression plainExpressions summaryLine [] (lineContext "now") := by
  refine evaluateExpression_eq_of_reads summaryLine [] rfl rfl ⟨?_, ?_, ?_⟩ ?_
  · intro path hpath
    obtain rfl := mem_singleton.mp (hpath : path ∈ [("status" : JSString)])
    rfl
  · intro request hrequest
    obtain rfl := mem_singleton.mp
      (hrequest : request ∈ [(⟨"secret", none⟩ : DecryptRequest)])
    rfl
  · intro op hop
    obtain rfl := mem_singleton.mp (hop : op ∈ [ExpressionOperation.childCount])
    rfl
  · intro node hnode
    simp only [summaryLine, walkExpression, walkArgs, walkBindings] at hnode
    fin_cases hnode <;> rfl

end MindooDB
