import FreeToken.Message.Decoding

/-!
# The message modules

The dataclasses of the backend, tokenizer and frontend modules, with the nested types they
import, and what each module's `globals()` make of a type name.
-/

namespace FreeToken.Message

def required (name : String) : Text × Option Value := (name.toList, none)

def optional (name : String) (value : Value) : Text × Option Value := (name.toList, some value)

/-! ## Nested types -/

def samplingParams : DataClass where
  name := "SamplingParams".toList
  fields :=
    [optional "temperature" (.float 0), optional "top_k" (.int (-1)),
      optional "top_p" (.float 0x3ff0000000000000), optional "ignore_eos" (.bool false),
      optional "max_tokens" (.int 1024), optional "stop_strs" (.list []),
      optional "logprobs" (.bool false), optional "top_logprobs" (.int 0)]
  names_nodup := by decide +kernel
  untagged := by decide +kernel

def hiddenStateSpec : DataClass where
  name := "HiddenStateSpec".toList
  fields :=
    [optional "directory" .none, optional "layer_ids" (.list []), optional "pooling" (.tuple [])]
  names_nodup := by decide +kernel
  untagged := by decide +kernel

/-! ## Messages to the backend -/

def baseBackendMsg : DataClass where
  name := "BaseBackendMsg".toList
  fields := []
  names_nodup := by decide +kernel
  untagged := by decide +kernel

def batchBackendMsg : DataClass where
  name := "BatchBackendMsg".toList
  fields :=
    [required "data"]
  names_nodup := by decide +kernel
  untagged := by decide +kernel

def exitMsg : DataClass where
  name := "ExitMsg".toList
  fields := []
  names_nodup := by decide +kernel
  untagged := by decide +kernel

def mmItem : DataClass where
  name := "MMItem".toList
  fields :=
    [required "modality", required "hash", required "pad_value", required "offsets",
      optional "feature" .none, optional "precomputed_embeddings" .none,
      optional "model_specific_data" (.dict [])]
  names_nodup := by decide +kernel
  untagged := by decide +kernel

def userMsg : DataClass where
  name := "UserMsg".toList
  fields :=
    [required "uid", required "input_ids", required "sampling_params", optional "mm_items" .none,
      optional "mrope_positions" .none, optional "mrope_delta" (.int 0),
      optional "session_id" .none, optional "session_ttl_seconds" .none,
      optional "session_reclaimable" (.bool false), optional "hidden_states" .none,
      optional "no_prefix_cache" (.bool false), optional "pin_key" .none,
      optional "prefix_boundary" .none]
  names_nodup := by decide +kernel
  untagged := by decide +kernel

def abortBackendMsg : DataClass where
  name := "AbortBackendMsg".toList
  fields :=
    [required "uid", optional "session_id" .none]
  names_nodup := by decide +kernel
  untagged := by decide +kernel

def closeSessionBackendMsg : DataClass where
  name := "CloseSessionBackendMsg".toList
  fields :=
    [required "session_id", required "request_id"]
  names_nodup := by decide +kernel
  untagged := by decide +kernel

def durableCheckpointBackendMsg : DataClass where
  name := "DurableCheckpointBackendMsg".toList
  fields :=
    [required "operation_id"]
  names_nodup := by decide +kernel
  untagged := by decide +kernel

def unpinPrefixesBackendMsg : DataClass where
  name := "UnpinPrefixesBackendMsg".toList
  fields :=
    [required "request_id"]
  names_nodup := by decide +kernel
  untagged := by decide +kernel

def cacheRebuildBackendMsg : DataClass where
  name := "CacheRebuildBackendMsg".toList
  fields :=
    [required "request_id", optional "moe_cache_size" .none, optional "num_pages" .none,
      optional "num_mamba_slots" .none, optional "num_swa_pages" .none,
      optional "mode" (.str "if_idle".toList)]
  names_nodup := by decide +kernel
  untagged := by decide +kernel

/-- The backend module. -/
def backend : Globals where
  classes :=
    [baseBackendMsg, batchBackendMsg, exitMsg, mmItem, userMsg, abortBackendMsg,
      closeSessionBackendMsg, durableCheckpointBackendMsg, unpinPrefixesBackendMsg,
      cacheRebuildBackendMsg, samplingParams, hiddenStateSpec]
  classes_nodup := by decide +kernel
  no_tensor := by decide +kernel

/-! ## Messages to the tokenizer -/

def baseTokenizerMsg : DataClass where
  name := "BaseTokenizerMsg".toList
  fields := []
  names_nodup := by decide +kernel
  untagged := by decide +kernel

def batchTokenizerMsg : DataClass where
  name := "BatchTokenizerMsg".toList
  fields :=
    [required "data"]
  names_nodup := by decide +kernel
  untagged := by decide +kernel

def detokenizeMsg : DataClass where
  name := "DetokenizeMsg".toList
  fields :=
    [required "uid", required "next_token", required "finished", optional "finish_reason" .none,
      optional "matched_stop" .none, optional "stop_strs" .none,
      optional "kv_transfer_params" .none, optional "first_logprobs" .none,
      optional "kv_used_pages" (.int 0), optional "kv_total_pages" (.int 0),
      optional "mamba_used_slots" (.int 0), optional "mamba_total_slots" (.int 0),
      optional "swa_used_tokens" (.int 0), optional "swa_total_tokens" (.int 0),
      optional "gpu_mem_bytes" (.int 0), optional "cuda_memory" .none]
  names_nodup := by decide +kernel
  untagged := by decide +kernel

def promptAdmittedMsg : DataClass where
  name := "PromptAdmittedMsg".toList
  fields :=
    [required "uid", required "prompt_tokens", optional "cached_tokens" (.int 0)]
  names_nodup := by decide +kernel
  untagged := by decide +kernel

def schedulerCountersMsg : DataClass where
  name := "SchedulerCountersMsg".toList
  fields :=
    [required "counters"]
  names_nodup := by decide +kernel
  untagged := by decide +kernel

def tokenizeMsg : DataClass where
  name := "TokenizeMsg".toList
  fields :=
    [required "uid", required "text", required "sampling_params",
      optional "chat_template_kwargs" .none, optional "tools" .none,
      optional "session_id" .none, optional "session_ttl_seconds" .none,
      optional "session_reclaimable" (.bool false), optional "hidden_states" .none,
      optional "no_prefix_cache" (.bool false), optional "pin_key" .none,
      optional "images" .none]
  names_nodup := by decide +kernel
  untagged := by decide +kernel

def abortMsg : DataClass where
  name := "AbortMsg".toList
  fields :=
    [required "uid", optional "session_id" .none]
  names_nodup := by decide +kernel
  untagged := by decide +kernel

def closeSessionMsg : DataClass where
  name := "CloseSessionMsg".toList
  fields :=
    [required "session_id", required "request_id"]
  names_nodup := by decide +kernel
  untagged := by decide +kernel

def sessionClosedResultMsg : DataClass where
  name := "SessionClosedResultMsg".toList
  fields :=
    [required "session_id", required "request_id", required "status"]
  names_nodup := by decide +kernel
  untagged := by decide +kernel

def durableCheckpointMsg : DataClass where
  name := "DurableCheckpointMsg".toList
  fields :=
    [required "operation_id"]
  names_nodup := by decide +kernel
  untagged := by decide +kernel

def durableCheckpointResultMsg : DataClass where
  name := "DurableCheckpointResultMsg".toList
  fields :=
    [required "operation_id", required "status", optional "durable_count" (.int 0),
      optional "durable_digest" .none, optional "durable_hashes" .none,
      optional "durable_hashes_truncated" (.bool false), optional "error" .none]
  names_nodup := by decide +kernel
  untagged := by decide +kernel

def unpinPrefixesMsg : DataClass where
  name := "UnpinPrefixesMsg".toList
  fields :=
    [required "request_id"]
  names_nodup := by decide +kernel
  untagged := by decide +kernel

def unpinPrefixesResultMsg : DataClass where
  name := "UnpinPrefixesResultMsg".toList
  fields :=
    [required "request_id", optional "pinned_prefixes" (.int 0), optional "pinned_tokens" (.int 0)]
  names_nodup := by decide +kernel
  untagged := by decide +kernel

def cacheRebuildMsg : DataClass where
  name := "CacheRebuildMsg".toList
  fields :=
    [required "request_id", optional "moe_cache_size" .none, optional "num_pages" .none,
      optional "num_mamba_slots" .none, optional "num_swa_pages" .none,
      optional "mode" (.str "if_idle".toList)]
  names_nodup := by decide +kernel
  untagged := by decide +kernel

def cacheRebuildResultMsg : DataClass where
  name := "CacheRebuildResultMsg".toList
  fields :=
    [required "request_id", required "status", optional "moe_cache_size" (.int 0),
      optional "num_pages" (.int 0), optional "mamba_slots" (.int 0),
      optional "num_swa_pages" (.int 0), optional "error" .none]
  names_nodup := by decide +kernel
  untagged := by decide +kernel

def errorReplyMsg : DataClass where
  name := "ErrorReplyMsg".toList
  fields :=
    [required "uid", required "error", optional "code" .none]
  names_nodup := by decide +kernel
  untagged := by decide +kernel

/-- The tokenizer module. -/
def tokenizer : Globals where
  classes :=
    [baseTokenizerMsg, batchTokenizerMsg, detokenizeMsg, promptAdmittedMsg, schedulerCountersMsg,
      tokenizeMsg, abortMsg, closeSessionMsg, sessionClosedResultMsg, durableCheckpointMsg,
      durableCheckpointResultMsg, unpinPrefixesMsg, unpinPrefixesResultMsg, cacheRebuildMsg,
      cacheRebuildResultMsg, errorReplyMsg, samplingParams, hiddenStateSpec]
  classes_nodup := by decide +kernel
  no_tensor := by decide +kernel

/-! ## Messages to the frontend -/

def baseFrontendMsg : DataClass where
  name := "BaseFrontendMsg".toList
  fields := []
  names_nodup := by decide +kernel
  untagged := by decide +kernel

def batchFrontendMsg : DataClass where
  name := "BatchFrontendMsg".toList
  fields :=
    [required "data"]
  names_nodup := by decide +kernel
  untagged := by decide +kernel

def userReply : DataClass where
  name := "UserReply".toList
  fields :=
    [required "uid", required "incremental_output", required "finished",
      optional "prompt_tokens_delta" (.int 0), optional "completion_tokens_delta" (.int 0),
      optional "cached_tokens" (.int 0), optional "kv_used_pages" (.int 0),
      optional "kv_total_pages" (.int 0), optional "mamba_used_slots" (.int 0),
      optional "mamba_total_slots" (.int 0), optional "swa_used_tokens" (.int 0),
      optional "swa_total_tokens" (.int 0), optional "gpu_mem_bytes" (.int 0),
      optional "cuda_memory" .none, optional "error" .none, optional "error_code" .none,
      optional "finish_reason" .none, optional "matched_stop" .none,
      optional "kv_transfer_params" .none, optional "first_logprobs" .none]
  names_nodup := by decide +kernel
  untagged := by decide +kernel

def cacheRebuildReply : DataClass where
  name := "CacheRebuildReply".toList
  fields :=
    [required "request_id", required "status", optional "moe_cache_size" (.int 0),
      optional "num_pages" (.int 0), optional "mamba_slots" (.int 0),
      optional "num_swa_pages" (.int 0), optional "error" .none]
  names_nodup := by decide +kernel
  untagged := by decide +kernel

def schedulerCountersReply : DataClass where
  name := "SchedulerCountersReply".toList
  fields :=
    [required "counters"]
  names_nodup := by decide +kernel
  untagged := by decide +kernel

def sessionClosedReply : DataClass where
  name := "SessionClosedReply".toList
  fields :=
    [required "session_id", required "request_id", required "status"]
  names_nodup := by decide +kernel
  untagged := by decide +kernel

def durableCheckpointReply : DataClass where
  name := "DurableCheckpointReply".toList
  fields :=
    [required "operation_id", required "status", optional "durable_count" (.int 0),
      optional "durable_digest" .none, optional "durable_hashes" .none,
      optional "durable_hashes_truncated" (.bool false), optional "error" .none]
  names_nodup := by decide +kernel
  untagged := by decide +kernel

def unpinPrefixesReply : DataClass where
  name := "UnpinPrefixesReply".toList
  fields :=
    [required "request_id", required "pinned_prefixes", required "pinned_tokens"]
  names_nodup := by decide +kernel
  untagged := by decide +kernel

/-- The frontend module. -/
def frontend : Globals where
  classes :=
    [baseFrontendMsg, batchFrontendMsg, userReply, cacheRebuildReply, schedulerCountersReply,
      sessionClosedReply, durableCheckpointReply, unpinPrefixesReply]
  classes_nodup := by decide +kernel
  no_tensor := by decide +kernel

/-- The three modules with a decoder. -/
inductive Module where
  | backend
  | tokenizer
  | frontend

def Module.globals : Module → Globals
  | .backend => Message.backend
  | .tokenizer => Message.tokenizer
  | .frontend => Message.frontend

end FreeToken.Message
